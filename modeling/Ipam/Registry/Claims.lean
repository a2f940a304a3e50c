import Ipam.Registry.Pools

namespace Ipam.Registry

open Allocation Allocator Cascade Database Transaction

def asClaim : Object → Option IPClaim
  | .claim c => some c
  | _ => none

def asAllocation : Object → Option IPAllocation
  | .allocation a => some a
  | _ => none

def claimObjectKey (tenant namespace_ name : String) : Key :=
  .object tenant .ipclaims namespace_ name

def allocationObjectKey (tenant namespace_ name : String) : Key :=
  .object tenant .ipallocations namespace_ name

def validateIPClaim (c : IPClaim) : Bool :=
  (c.className ≠ "" || c.ipFamily.isSome) &&
    c.prefixLength.all (fun p => 0 < p && p ≤ 128) &&
    (c.target = .block || c.address.isNone && c.prefixLength.isNone && c.reclaimPolicy.isNone) &&
    c.scope.all fun e => e.1 ≠ reservedRoleProject && e.2.kind ≠ "" && e.2.name ≠ ""

def ipClaimStrategy : Strategy IPClaim where
  encode := .claim
  decode := asClaim
  prepareForCreate c :=
    { c with phase := .pending, allocatedCIDR := none, poolRef := none, boundAllocationRef := none }
  validate name c := name ≠ "" && validateIPClaim c
  prepareForUpdate new old :=
    { new with
      phase := old.phase
      allocatedCIDR := old.allocatedCIDR
      poolRef := old.poolRef
      boundAllocationRef := old.boundAllocationRef }
  validateUpdate _ new old :=
    validateIPClaim new && new.ipFamily = old.ipFamily && new.addressScope = old.addressScope &&
      new.prefixLength = old.prefixLength && new.className = old.className && new.target = old.target &&
      new.scope = old.scope

def validateIPAllocation (a : IPAllocation) : Bool :=
  a.poolRef ≠ "" && a.ipFamily.isSome

def ipAllocationStrategy : Strategy IPAllocation where
  encode := .allocation
  decode := asAllocation
  prepareForCreate a := a
  validate name a := name ≠ "" && validateIPAllocation a
  prepareForUpdate new old := { new with allocatedCIDR := old.allocatedCIDR, scopeDigest := old.scopeDigest }
  validateUpdate _ new old := validateIPAllocation new && new.ipFamily = old.ipFamily && new.poolRef = old.poolRef

/-- A request to write a claim. `namespaceLive` is the answer of the namespace checker. -/
structure ClaimRequest where
  tenant : String
  namespace_ : String
  name : String
  claim : IPClaim
  admitted : Bool
  namespaceLive : Bool
  dryRun : List String
  deriving DecidableEq, Repr

def ClaimRequest.key (req : ClaimRequest) : Key :=
  claimObjectKey req.tenant req.namespace_ req.name

def defaulted (claim : IPClaim) (class_ : ResolvedClass) : IPClaim :=
  { claim with
    className := class_.localName
    ipFamily := class_.spec.ipFamily
    addressScope := class_.spec.addressScope }

def classMatches (claim : IPClaim) (class_ : ResolvedClass) : Except Err Unit :=
  if claim.ipFamily.isSome ∧ claim.ipFamily ≠ class_.spec.ipFamily then .error .familyMismatch
  else if claim.addressScope.isSome ∧ claim.addressScope ≠ class_.spec.addressScope then .error .addressScopeMismatch
  else .ok ()

section

variable (hash : Scope.Text → String)

def allocationNameFor (namespace_ name : String) : String :=
  "alloc-" ++ String.ofList ((hash (Scope.text (namespace_ ++ "/" ++ name))).toList.take 16)

def ClaimRequest.allocationKey (req : ClaimRequest) : Key :=
  allocationObjectKey req.tenant req.namespace_ (allocationNameFor hash req.namespace_ req.name)

def boundClaim (req : ClaimRequest) (claim : IPClaim) (poolKey : Key) (cidr : Cidr) : IPClaim :=
  { claim with
    phase := .bound
    allocatedCIDR := some cidr
    boundAllocationRef := some (allocationNameFor hash req.namespace_ req.name)
    poolRef := some (keyName poolKey) }

def boundAllocation (req : ClaimRequest) (class_ : ResolvedClass) (poolKey : Key) (policy : ReclaimPolicy)
    (space : Scope × String) (cidr : Cidr) : IPAllocation where
  ipFamily := class_.spec.ipFamily
  poolRef := keyName poolKey
  className := class_.name
  purpose := .claim
  claimRef := some req.name
  scope := space.1
  reclaimPolicy := policy
  ownerRef := req.tenant
  allocatedCIDR := cidr
  scopeDigest := space.2

def blockRequest (req : ClaimRequest) (poolKey : Key) (prefixLen : ℤ) (policy : ReclaimPolicy) (digest : String) :
    PrefixRequest :=
  ⟨poolKey, prefixLen, digest, req.key, some (req.allocationKey hash), some policy⟩

def bindBlock (req : ClaimRequest) (claim : IPClaim) (class_ : ResolvedClass) (poolKey : Key) (prefixLen : ℤ)
    (space : Scope × String) : Tx IPClaim := do
  let policy := effectiveReclaimPolicy class_.spec claim.reclaimPolicy
  let cidr ← allocatePrefix (emptyAddressSpaceDigest hash) (blockRequest hash req poolKey prefixLen policy space.2)
  send (.insertObject (req.allocationKey hash)
    (.allocation (boundAllocation req class_ poolKey policy space cidr)))
  send (.insertObject req.key (.claim (boundClaim hash req claim poolKey cidr)))
  pure (boundClaim hash req claim poolKey cidr)

def tryBlock (req : ClaimRequest) (claim : IPClaim) (class_ : ResolvedClass) (poolKey : Key) (prefixLen : ℤ)
    (space : Scope × String) : Tx IPClaim := do
  let policy := effectiveReclaimPolicy class_.spec claim.reclaimPolicy
  let cidr ← allocatePrefix (emptyAddressSpaceDigest hash) (blockRequest hash req poolKey prefixLen policy space.2)
  pure (boundClaim hash req claim poolKey cidr)

def createBlock (req : ClaimRequest) (claim : IPClaim) (class_ : ResolvedClass) : Handler IPClaim := do
  let prefixLen ← Request.ofExcept id (effectivePrefixLength class_.spec claim.prefixLength)
  let space ← Request.ofExcept id
    (projectAddressSpaceDigest hash req.tenant claim.scope class_.spec.uniqueWithin "uniqueWithin")
  let poolKey ← resolvePool hash req.tenant class_ claim.scope
  if isDryRun req.dryRun then Request.rollback (tryBlock hash req claim class_ poolKey prefixLen space)
  else Request.transact (bindBlock hash req claim class_ poolKey prefixLen space)

def heldRange (claim : IPClaim) (poolKey : Key) (cidr : Cidr) : IPClaim :=
  { claim with phase := .bound, allocatedCIDR := some cidr, poolRef := some (keyName poolKey) }

def holdRange (req : ClaimRequest) (claim : IPClaim) (poolKey : Key) : Tx IPClaim := do
  let cidr ← bindScopeRange poolKey req.key
  send (.insertObject req.key (.claim (heldRange claim poolKey cidr)))
  pure (heldRange claim poolKey cidr)

def tryRange (req : ClaimRequest) (claim : IPClaim) (poolKey : Key) : Tx IPClaim := do
  let cidr ← bindScopeRange poolKey req.key
  pure (heldRange claim poolKey cidr)

def createScopeRange (req : ClaimRequest) (claim : IPClaim) (class_ : ResolvedClass) : Handler IPClaim := do
  let poolKey ← resolveScopeRange hash req.tenant class_ claim.scope
  if isDryRun req.dryRun then Request.rollback (tryRange req claim poolKey)
  else Request.transact (holdRange req claim poolKey)

def createClaim (req : ClaimRequest) : Handler IPClaim :=
  let claim := ipClaimStrategy.prepareForCreate req.claim
  if ¬ ipClaimStrategy.validate req.name claim then Request.throw .invalid
  else do
    let class_ ← Request.rollback (resolveClass req.tenant claim.className claim.ipFamily)
    Request.ofExcept id (classMatches claim class_)
    if ¬ req.admitted then Request.throw .forbidden
    else if ¬ req.namespaceLive then Request.throw .forbidden
    else
      match claim.target with
      | .scopeRange => createScopeRange hash req (defaulted claim class_) class_
      | .block => createBlock hash req (defaulted claim class_) class_

end

def updateClaim (req : ClaimRequest) (forceAllowCreate : Bool) : Handler IPClaim :=
  persist req.dryRun (ipClaimStrategy.update req.tenant req.key req.claim forceAllowCreate req.admitted
    fun _ => pure ())

def releaseRangeTree : ℕ → Key → Tx Unit
  | 0, _ => .throw .rangeTreeTooDeep
  | levels + 1, poolKey => do
    let rows : List Row ← send (.occupants poolKey)
    if rows.all fun r => r.purpose = .poolCarve && r.claimKey = some r.allocationKey then do
      sendAll (releaseRangeTree levels) (rows.map Row.allocationKey)
      releasePoolReservations poolKey
      releaseAllocation poolKey
      send (.deleteObject poolKey)
    else .throw .scopeRangeOccupied

def releaseScopeRange (poolKey : Key) : Tx Unit :=
  releaseRangeTree (maxClassChainDepth + 1) poolKey

def deleteScopeRange (claimKey : Key) : Tx Unit := do
  let held : Option Key ← send (.findScopeRange claimKey)
  match held with
  | some poolKey => releaseScopeRange poolKey
  | none => pure ()
  send (.deleteObject claimKey)

def unbindAllocation (allocationKey : Key) : Tx Unit := do
  let o : Option Object ← send (.getObject allocationKey)
  match o with
  | none => pure ()
  | some o => do
    let alloc ← Prog.ofOption .invalid (asAllocation o)
    send (.updateObject allocationKey (.allocation { alloc with claimRef := none }))

def disposeAllocation (allocationKey : Key) (retained : List Key) : Tx Unit :=
  if allocationKey ∈ retained then unbindAllocation allocationKey else send (.deleteObject allocationKey)

def releaseAndDelete (tenant namespace_ : String) (claim : IPClaim) (claimKey : Key) : Tx Unit := do
  let retained ← release claimKey
  match claim.boundAllocationRef with
  | some name =>
    if name ≠ "" then disposeAllocation (allocationObjectKey tenant namespace_ name) retained else pure ()
  | none => pure ()
  send (.deleteObject claimKey)

def deleteMaxAttempts : ℕ := 3

structure DeleteRequest where
  tenant : String
  namespace_ : String
  name : String
  admitted : Bool
  dryRun : List String
  deriving DecidableEq, Repr

def deleteClaim (req : DeleteRequest) : Handler Unit := do
  let key := claimObjectKey req.tenant req.namespace_ req.name
  let claim ← Request.rollback (ipClaimStrategy.get key)
  if ¬ req.admitted then Request.throw .forbidden
  else if isDryRun req.dryRun then pure ()
  else
    match claim.target with
    | .scopeRange => Request.transact (deleteScopeRange key)
    | .block => do
      Request.transact (send (.updateObject key (.claim { claim with phase := .releasing })) : Tx Unit)
      Request.attempts (deleteMaxAttempts - 1)
        (Request.transact (releaseAndDelete req.tenant req.namespace_ claim key))

structure AllocationRequest where
  tenant : String
  namespace_ : String
  name : String
  allocation : IPAllocation
  admitted : Bool
  dryRun : List String
  deriving DecidableEq, Repr

def AllocationRequest.key (req : AllocationRequest) : Key :=
  allocationObjectKey req.tenant req.namespace_ req.name

def updateAllocation (req : AllocationRequest) (forceAllowCreate : Bool) : Handler IPAllocation :=
  persist req.dryRun (ipAllocationStrategy.update req.tenant req.key req.allocation forceAllowCreate req.admitted
    fun _ => pure ())

def IPAllocation.isBound (a : IPAllocation) : Bool :=
  a.claimRef.any fun name => name ≠ ""

def freeAllocation (key : Key) : Tx Unit := do
  releaseAllocation key
  send (.deleteObject key)

def deleteAllocation (req : DeleteRequest) : Handler Unit := do
  let key := allocationObjectKey req.tenant req.namespace_ req.name
  let alloc ← Request.rollback (ipAllocationStrategy.get key)
  if ¬ req.admitted then Request.throw .forbidden
  else if IPAllocation.isBound alloc then Request.throw .invalid
  else if isDryRun req.dryRun then pure ()
  else Request.transact (freeAllocation key)

end Ipam.Registry
