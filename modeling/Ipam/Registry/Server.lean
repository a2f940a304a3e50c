import Ipam.Cascade.Provision
import Ipam.Registry.ScopeRange

/-!
The server. A request changes the ledger by the transactions it commits, and `Change` lists what one of them can do.
`hash` is the lower-case hexadecimal SHA-256 of a text.
-/

namespace Ipam.Registry

open Allocation Allocator Cascade Database Transaction

inductive Action where
  | createClass (req : ClassRequest)
  | updateClass (req : ClassRequest) (forceAllowCreate : Bool)
  | deleteClass (project name : String) (admitted : Bool) (dryRun : List String)
  | createPool (req : PoolRequest)
  | updatePool (req : PoolRequest) (forceAllowCreate : Bool)
  | deletePool (project name : String) (admitted : Bool) (dryRun : List String)
  | deletePools (project : String) (admitted : Bool) (dryRun : List String) (names : List String)
  | createClaim (req : ClaimRequest)
  | updateClaim (req : ClaimRequest) (forceAllowCreate : Bool)
  | deleteClaim (req : DeleteRequest)
  | updateAllocation (req : AllocationRequest) (forceAllowCreate : Bool)
  | deleteAllocation (req : DeleteRequest)

def serve (hash : Scope.Text → String) : Action → Db → Db
  | .createClass req => (createClass req).after
  | .updateClass req forceAllowCreate => (updateClass req forceAllowCreate).after
  | .deleteClass project name admitted dryRun => (deleteClass project name admitted dryRun).after
  | .createPool req => (createPool (emptyAddressSpaceDigest hash) req).after
  | .updatePool req forceAllowCreate => (updatePool req forceAllowCreate).after
  | .deletePool project name admitted dryRun => (deletePool project name admitted dryRun).after
  | .deletePools project admitted dryRun names => (deletePoolCollection project admitted dryRun names).after
  | .createClaim req => (createClaim hash req).after
  | .updateClaim req forceAllowCreate => (updateClaim req forceAllowCreate).after
  | .deleteClaim req => (deleteClaim req).after
  | .updateAllocation req forceAllowCreate => (updateAllocation req forceAllowCreate).after
  | .deleteAllocation req => (deleteAllocation req).after

def PoolRequest.prefixRequest (req : PoolRequest) (parent : String) : PrefixRequest :=
  ⟨poolStorageKey req.project parent, (preparePoolForCreate req.pool).prefixLength, "", req.key, some req.key, none⟩

def ClaimRequest.claimOf (req : ClaimRequest) (class_ : ResolvedClass) : IPClaim :=
  defaulted (ipClaimStrategy.prepareForCreate req.claim) class_

def DeleteRequest.claimKey (req : DeleteRequest) : Key :=
  claimObjectKey req.tenant req.namespace_ req.name

def DeleteRequest.allocationKey (req : DeleteRequest) : Key :=
  allocationObjectKey req.tenant req.namespace_ req.name

def RootApart (L : Ledger) (req : PoolRequest) : Prop :=
  Tenant.SeesOwn req.project.toList → ∀ namespace_ name pool range candidate,
    L.objects (.object req.project .ippools namespace_ name) = some (.pool pool) → name ≠ req.name →
    pool.parentPoolRef = none → pool.cidr = some range → req.pool.cidr = some candidate →
    cidrsOverlap candidate range = false

def retainedKeys (L : Ledger) (claim : Key) : List Key :=
  (L.rows.filter (Row.retained claim)).map Row.allocationKey

def released (L : Ledger) (claim : Key) : Ledger :=
  (Ledger.retain L claim).drop fun r => r.claimKey = some claim

inductive Disposed (L : Ledger) (retained : List Key) : Option Key → Ledger → Prop where
  | unbound : Disposed L retained none L
  | missing {k : Key} (hkept : k ∈ retained) (h : L.objects k = none) : Disposed L retained (some k) L
  | kept {k : Key} {a : IPAllocation} (hkept : k ∈ retained) (h : L.objects k = some (.allocation a)) :
      Disposed L retained (some k) (L.put k (.allocation { a with claimRef := none }))
  | removed {k : Key} (hgone : k ∉ retained) (hempty : ∀ r ∈ L.rows, r.poolKey ≠ k) :
      Disposed L retained (some k) (L.remove k)

def boundKey (tenant namespace_ : String) (claim : IPClaim) : Option Key :=
  (claim.boundAllocationRef.filter fun name => name ≠ "").map (allocationObjectKey tenant namespace_)

section

variable (hash : Scope.Text → String)

abbrev emptySpace : String := emptyAddressSpaceDigest hash

abbrev BlockTaken (req : ClaimRequest) (class_ : ResolvedClass) (poolKey : Key) (n : ℤ) (space : Scope × String) :
    Ledger → Ledger → Ledger → IPPool → IPNet → Cidr → Prop :=
  Taken (emptySpace hash) poolKey (searchDigest (emptySpace hash) space.2) n
    ((blockRequest hash req poolKey n (effectiveReclaimPolicy class_.spec req.claim.reclaimPolicy) space.2).row
      (emptySpace hash))

inductive Change (L : Ledger) : Action → Ledger → Prop where
  | createClass {req : ClassRequest} (valid : validateIPClass req.name req.class_ = true)
      (absent : L.objects req.key = none) :
      Change L (.createClass req) (L.put req.key (.class_ req.class_))
  | forceClass {req : ClassRequest} (valid : validateIPClass req.name req.class_ = true)
      (absent : L.objects req.key = none) :
      Change L (.updateClass req true) (L.put req.key (.class_ req.class_))
  | updateClass {req : ClassRequest} {forceAllowCreate : Bool} {old : IPClass}
      (stored : L.objects req.key = some (.class_ old))
      (valid : ipClassStrategy.validateUpdate req.name req.class_ old = true) :
      Change L (.updateClass req forceAllowCreate) (L.put req.key (.class_ req.class_))
  | removeClass {project name : String} {admitted : Bool} {dryRun : List String}
      (empty : ∀ r ∈ L.rows, r.poolKey ≠ classStorageKey project name) :
      Change L (.deleteClass project name admitted dryRun) (L.remove (classStorageKey project name))
  | createRoot {req : PoolRequest} (root : req.pool.parentPoolRef = none) (apart : RootApart L req)
      (valid : validateIPPool (preparePoolForCreate req.pool) = true) (absent : L.objects req.key = none) :
      Change L (.createPool req) (L.put req.key (.pool (preparePoolForCreate req.pool).core))
  | authorChild {req : PoolRequest} {parent : String} {mid carved : Ledger} {pool : IPPool} {block : IPNet} {b : Cidr}
      (child : req.pool.parentPoolRef = some parent) (valid : validateIPPool (preparePoolForCreate req.pool) = true)
      (taken : Taken (emptySpace hash) (poolStorageKey req.project parent) (emptySpace hash)
        (preparePoolForCreate req.pool).prefixLength ((req.prefixRequest parent).row (emptySpace hash)) L mid carved pool
        block b)
      (absent : carved.objects req.key = none) :
      Change L (.createPool req)
        (carved.put req.key (.pool { preparePoolForCreate req.pool with allocatedCIDR := some b }.core))
  | forcePool {req : PoolRequest} (valid : validateIPPool (preparePoolForCreate req.pool) = true)
      (absent : L.objects req.key = none) :
      Change L (.updatePool req true) (L.put req.key (.pool (preparePoolForCreate req.pool).core))
  | updatePool {req : PoolRequest} {forceAllowCreate : Bool} {old : IPPool}
      (stored : L.objects req.key = some (.pool old))
      (valid : ipPoolStrategy.validateUpdate req.name (ipPoolStrategy.prepareForUpdate req.pool old) old = true) :
      Change L (.updatePool req forceAllowCreate)
        (L.put req.key (.pool (ipPoolStrategy.prepareForUpdate req.pool old).core))
  | dropReservations {project name : String} {admitted : Bool} {dryRun : List String} {pool : IPPool}
      (stored : L.objects (poolStorageKey project name) = some (.pool pool)) (root : pool.parentPoolRef = none)
      (empty : ∀ r ∈ L.rows, r.poolKey = poolStorageKey project name → r.purpose = .reservation) :
      Change L (.deletePool project name admitted dryRun)
        (L.drop (DeleteCond.matches (.reservationsOf (poolStorageKey project name))))
  | removeRoot {project name : String} {admitted : Bool} {dryRun : List String} {pool : IPPool}
      (stored : L.objects (poolStorageKey project name) = some (.pool pool)) (root : pool.parentPoolRef = none)
      (empty : ∀ r ∈ L.rows, r.poolKey ≠ poolStorageKey project name) :
      Change L (.deletePool project name admitted dryRun) (L.remove (poolStorageKey project name))
  | deleteChild {project name : String} {admitted : Bool} {dryRun : List String} {pool : IPPool}
      (stored : L.objects (poolStorageKey project name) = some (.pool pool)) (child : pool.parentPoolRef ≠ none)
      (empty : ∀ r ∈ L.rows, r.poolKey = poolStorageKey project name → r.purpose = .reservation) :
      Change L (.deletePool project name admitted dryRun)
        ((released (L.drop (DeleteCond.matches (.reservationsOf (poolStorageKey project name))))
          (poolStorageKey project name)).remove (poolStorageKey project name))
  | removePool {project : String} {admitted : Bool} {dryRun names : List String} {name : String} {pool : IPPool}
      (named : name ∈ names) (stored : L.objects (poolStorageKey project name) = some (.pool pool))
      (empty : ∀ r ∈ L.rows, r.poolKey ≠ poolStorageKey project name) :
      Change L (.deletePools project admitted dryRun names) (L.remove (poolStorageKey project name))
  | provision {req : ClaimRequest} {level : CascadeLevel} {source : Key} {n : ℤ} {mid carved L' : Ledger} {pool : IPPool}
      {block : IPNet} {b : Cidr} (plan : planLevel hash req.tenant req.claim.scope level.class_ = .ok level)
      (defined : Defined L level.class_) (draws : Draws hash L req.tenant req.claim.scope level.class_ source)
      (h : Provisioned (emptySpace hash) level source n L mid carved L' pool block b) :
      Change L (.createClaim req) L'
  | bindBlock {req : ClaimRequest} {class_ : ResolvedClass} {poolKey : Key} {n : ℤ} {space : Scope × String}
      {mid carved : Ledger} {pool : IPPool} {block : IPNet} {b : Cidr} (target : req.claim.target = .block)
      (valid : ipClaimStrategy.validate req.name (ipClaimStrategy.prepareForCreate req.claim) = true)
      (defined : Defined L class_) (draws : Draws hash L req.tenant req.claim.scope class_ poolKey)
      (length : effectivePrefixLength class_.spec req.claim.prefixLength = .ok n)
      (space_eq : projectAddressSpaceDigest hash req.tenant req.claim.scope class_.spec.uniqueWithin "uniqueWithin" =
        .ok space)
      (taken : BlockTaken hash req class_ poolKey n space L mid carved pool block b)
      (absent : carved.objects (req.allocationKey hash) = none) (claimAbsent : carved.objects req.key = none) :
      Change L (.createClaim req)
        ((carved.put (req.allocationKey hash) (.allocation (boundAllocation req class_ poolKey
          (effectiveReclaimPolicy class_.spec req.claim.reclaimPolicy) space b))).put req.key
            (.claim (boundClaim hash req (req.claimOf class_) poolKey b)))
  | holdRange {req : ClaimRequest} {class_ : ResolvedClass} {level : CascadeLevel} {poolKey : Key} {carve : Row}
      (target : req.claim.target = .scopeRange) (defined : Defined L class_)
      (plan : planLevel hash req.tenant req.claim.scope class_ = .ok level)
      (identity : level.identity poolKey ∈ L.identities) (mem : carve ∈ L.rows)
      (key : carve.allocationKey = poolKey) (purpose : carve.purpose = .poolCarve)
      (self : carve.claimKey = some poolKey)
      (free : ∀ o ∈ L.rows, o.claimKey = some req.key → o.allocationKey = poolKey) (absent : L.objects req.key = none) :
      Change L (.createClaim req)
        ((L.setClaim poolKey (some req.key)).put req.key (.claim (heldRange (req.claimOf class_) poolKey carve.cidr)))
  | forceClaim {req : ClaimRequest} (absent : L.objects req.key = none) :
      Change L (.updateClaim req true) (L.put req.key (.claim (ipClaimStrategy.prepareForCreate req.claim)))
  | updateClaim {req : ClaimRequest} {forceAllowCreate : Bool} {old : IPClaim}
      (stored : L.objects req.key = some (.claim old))
      (valid : ipClaimStrategy.validateUpdate req.name (ipClaimStrategy.prepareForUpdate req.claim old) old = true) :
      Change L (.updateClaim req forceAllowCreate)
        (L.put req.key (.claim (ipClaimStrategy.prepareForUpdate req.claim old)))
  | releasing {req : DeleteRequest} {claim : IPClaim} (stored : L.objects req.claimKey = some (.claim claim))
      (target : claim.target = .block) :
      Change L (.deleteClaim req) (L.put req.claimKey (.claim { claim with phase := .releasing }))
  | releaseClaim {req : DeleteRequest} {claim : IPClaim} {disposed : Ledger}
      (stored : L.objects req.claimKey = some (.claim { claim with phase := .releasing })) (target : claim.target = .block)
      (disposal : Disposed (released L req.claimKey) (retainedKeys L req.claimKey)
        (boundKey req.tenant req.namespace_ claim) disposed)
      (empty : ∀ r ∈ disposed.rows, r.poolKey ≠ req.claimKey) :
      Change L (.deleteClaim req) (disposed.remove req.claimKey)
  | releaseRange {req : DeleteRequest} {claim : IPClaim} {carve : Row} {tree : List Key}
      (stored : L.objects req.claimKey = some (.claim claim)) (target : claim.target = .scopeRange)
      (mem : carve ∈ L.rows) (held : carve.claimKey = some req.claimKey) (purpose : carve.purpose = .poolCarve)
      (mem_tree : ∀ x, x ∈ tree ↔ InTree L.rows carve.allocationKey x)
      (closed : ∀ r ∈ L.rows, r.poolKey ∈ tree → r.purpose = .reservation ∨ Row.derived r ∧ r.allocationKey ∈ tree) :
      Change L (.deleteClaim req) ((Ledger.clear L tree [carve.allocationKey]).remove req.claimKey)
  | removeRangeClaim {req : DeleteRequest} {claim : IPClaim} (stored : L.objects req.claimKey = some (.claim claim))
      (target : claim.target = .scopeRange)
      (unheld : ∀ r ∈ L.rows, r.claimKey = some req.claimKey → r.purpose ≠ .poolCarve)
      (empty : ∀ r ∈ L.rows, r.poolKey ≠ req.claimKey) :
      Change L (.deleteClaim req) (L.remove req.claimKey)
  | forceAllocation {req : AllocationRequest} (absent : L.objects req.key = none) :
      Change L (.updateAllocation req true) (L.put req.key (.allocation req.allocation))
  | updateAllocation {req : AllocationRequest} {forceAllowCreate : Bool} {old : IPAllocation}
      (stored : L.objects req.key = some (.allocation old))
      (valid : ipAllocationStrategy.validateUpdate req.name
        (ipAllocationStrategy.prepareForUpdate req.allocation old) old = true) :
      Change L (.updateAllocation req forceAllowCreate)
        (L.put req.key (.allocation (ipAllocationStrategy.prepareForUpdate req.allocation old)))
  | freeAllocation {req : DeleteRequest} {a : IPAllocation} (stored : L.objects req.allocationKey = some (.allocation a))
      (unbound : IPAllocation.isBound a = false)
      (empty : ∀ r ∈ L.rows, r.allocationKey ≠ req.allocationKey → r.poolKey ≠ req.allocationKey) :
      Change L (.deleteAllocation req)
        ((L.drop fun r => r.allocationKey = req.allocationKey).remove req.allocationKey)

abbrev Changes (a : Action) : Ledger → Ledger → Prop :=
  Relation.ReflTransGen fun L L' => Change hash L a L'

end

end Ipam.Registry
