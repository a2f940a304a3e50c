import Ipam.Registry.Store

namespace Ipam.Registry

open Allocation Allocator Cascade Database Transaction

def isDNS1123Subdomain (name : String) : Bool :=
  name.length ≤ 253 &&
    (name.toList.splitOn '.').all fun label =>
      label.head?.any isNameChar && label.getLast?.any isNameChar && label.all fun c => isNameChar c || c = '-'

def validateReference (c : IPClass) (src : String × String) : Bool :=
  isDNS1123Subdomain src.1 && isDNS1123Subdomain src.2 && c.ipFamily.isNone && c.addressScope.isNone &&
    c.parentClassName.isNone && c.poolPer.isEmpty && c.uniqueWithin.isEmpty && c.allowedPrefixLengths.isNone &&
    c.defaultPrefixLength = 0 && c.reservations.isNone && c.strategy.isNone && c.reclaimPolicy.isNone

def validateDefinition (name : String) (c : IPClass) : Bool :=
  c.ipFamily.isSome && !(name ≠ "" && c.parentClassName = some name) &&
    (c.allowedPrefixLengths.all fun r =>
      r.1 ≤ r.2 && (c.defaultPrefixLength = 0 || r.1 ≤ c.defaultPrefixLength && c.defaultPrefixLength ≤ r.2)) &&
    !(c.reservations.isSome && c.poolPer.isEmpty) &&
    (c.uniqueWithin.all fun role => role ≠ reservedRoleProject) && reservationsValid c.ipFamily c.reservations

def validateIPClass (name : String) (c : IPClass) : Bool :=
  match c.source with
  | some src => validateReference c src
  | none => validateDefinition name c

def ipClassStrategy : Strategy IPClass where
  encode := .class_
  decode
    | .class_ c => some c
    | _ => none
  prepareForCreate c := c
  validate := validateIPClass
  prepareForUpdate new _ := new
  validateUpdate name new old :=
    validateIPClass name new && new.source = old.source && new.ipFamily = old.ipFamily &&
      (old.addressScope.isNone || new.addressScope = old.addressScope) &&
      new.parentClassName = old.parentClassName && new.uniqueWithin = old.uniqueWithin && new.poolPer = old.poolPer

def roleSetKey (roles : List String) : List String :=
  sortNames roles.dedup

def offeredSpace (c : IPClass) : Option (List String) :=
  if c.source.isSome ∨ c.parentClassName.isSome then none else some (roleSetKey c.uniqueWithin)

def offeredSpaces (project : String) : List String → Tx (List (List String))
  | [] => pure []
  | name :: rest => do
    let o : Option Object ← send (.getObject (classStorageKey project name))
    let spaces ← offeredSpaces project rest
    pure (((asClass o).bind offeredSpace).toList ++ spaces)

def firstDisagreement : List (List String) → Bool
  | [] => false
  | first :: rest => rest.any fun space => space ≠ first

def poolsOffering (project className : String) (s : Db) : List (List String) :=
  ((s.objects.filterMap fun
    | (.object p .ippools _ name, .pool pool) =>
      if p = project ∧ className ∈ pool.classNames then some (name, pool.classNames) else none
    | _ => none).insertionSort fun a b => a.1 ≤ b.1).map Prod.snd

def offersDisagree (project : String) (space : List String) : List (List String) → Tx Bool
  | [] => pure false
  | offer :: rest => do
    let spaces ← offeredSpaces project offer
    if firstDisagreement (spaces ++ [space]) then pure true else offersDisagree project space rest

def classJoinsDisagreement (project name : String) (space : List String) : Tx Bool := do
  let s : Db ← send .select
  offersDisagree project space (poolsOffering project name s)

def validateOfferAgreement (project name : String) (c : IPClass) : Tx Unit :=
  if c.source.isSome ∨ c.parentClassName.isSome then pure ()
  else do
    let d ← classJoinsDisagreement project name (roleSetKey c.uniqueWithin)
    if d then .throw .invalid else pure ()

/-- `canUse` is the answer of the class checker, `none` when no checker is configured. -/
def authorizeSource (project : String) (canUse : Option Bool) (c : IPClass) : Except Err Unit :=
  match c.source with
  | none => .ok ()
  | some src =>
    if src.1 = project then .ok ()
    else
      match canUse with
      | some true => .ok ()
      | _ => .error .forbidden

structure ClassRequest where
  project : String
  name : String
  class_ : IPClass
  canUse : Option Bool
  admitted : Bool
  dryRun : List String
  deriving DecidableEq, Repr

def ClassRequest.key (req : ClassRequest) : Key :=
  classStorageKey req.project req.name

def createClass (req : ClassRequest) : Handler IPClass := do
  Request.ofExcept id (authorizeSource req.project req.canUse req.class_)
  Request.rollback (validateOfferAgreement req.project req.name req.class_)
  persist req.dryRun (ipClassStrategy.create req.project req.key req.class_ req.admitted)

def updateClass (req : ClassRequest) (forceAllowCreate : Bool) : Handler IPClass :=
  persist req.dryRun (ipClassStrategy.update req.project req.key req.class_ forceAllowCreate req.admitted
    fun _ => pure ())

def deleteClass (project name : String) (admitted : Bool) (dryRun : List String) : Handler Unit :=
  persist dryRun (ipClassStrategy.delete (classStorageKey project name) admitted)

end Ipam.Registry
