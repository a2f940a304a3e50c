import Ipam.Cascade.Plan

namespace Ipam.Cascade

open Allocation Allocator Database Transaction

def lookupPoolIdentity (className scopeDigest : String) : Tx (Option Key) :=
  send (.lookupPoolIdentity className scopeDigest)

def claimPoolIdentity (className scopeDigest : String) (proposedKey : Key) : Tx (Key × Bool) := do
  let won : Bool ← send (.claimPoolIdentity ⟨className, scopeDigest, proposedKey⟩)
  if won then pure (proposedKey, true)
  else do
    let winner ← lookupPoolIdentity className scopeDigest
    match winner with
    | none => .throw .identityLost
    | some key => pure (key, false)

def keyName : Key → String
  | .object _ _ _ name => name
  | .reservation _ _ => ""

def newProvisionedPool (level : CascadeLevel) (sourcePoolName : String) (prefixLen : ℤ) (cidr : IPNet) : IPPool where
  cidr := none
  ipFamily := level.class_.spec.ipFamily
  parentPoolRef := some sourcePoolName
  prefixLength := prefixLen
  classNames := []
  classRef := some level.class_.name
  scope := level.scope
  reservations := level.class_.spec.reservations
  strategy := .unset
  minPrefixLength := 0
  maxPrefixLength := 0
  allocatedCIDR := cidr.string
  statusFamily := level.class_.spec.ipFamily
  scopeDigest := level.scopeDigest
  capacity := none

section

variable (emptyDigest : String)

def provisionPool (level : CascadeLevel) (sourcePoolKey : Key) : Tx Unit := do
  let prefixLen ← Prog.ofExcept id (effectivePrefixLength level.class_.spec none)
  let cidr ← carveFromPool emptyDigest sourcePoolKey prefixLen ⟨level.poolKey, level.scopeDigest⟩
  let pool := setPoolCapacityStatus (newProvisionedPool level (keyName sourcePoolKey) prefixLen cidr) [cidr] 0
  send (.insertObject level.poolKey (.pool pool))
  materialiseReservations emptyDigest level.poolKey pool [cidr]

def ensureLevel (level : CascadeLevel) (sourcePoolKey : Key) : Tx (Key × Bool) := do
  let existing ← lookupPoolIdentity level.class_.name level.scopeDigest
  match existing with
  | some key => pure (key, false)
  | none => do
    let claimed ← claimPoolIdentity level.class_.name level.scopeDigest level.poolKey
    if claimed.2 then do
      provisionPool emptyDigest level sourcePoolKey
      pure (claimed.1, true)
    else pure (claimed.1, false)

end

end Ipam.Cascade
