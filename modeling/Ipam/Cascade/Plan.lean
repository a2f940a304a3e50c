import Mathlib.Data.List.DropRight
import Ipam.Cascade.Classes
import Ipam.Scope.Canonical

/-!
The levels of a class chain. A projected scope is listed by role, so equal maps are equal lists. `hash` is the
lower-case hexadecimal SHA-256 of a text.
-/

namespace Ipam.Cascade

open Allocation Allocator Database Transaction

structure PoolTenancy where
  owner : String
  consumer : String
  deriving DecidableEq, Repr

def reservedRoleProject : String := "project"

def poolPerRoles (poolPer : List String) : List String × Bool :=
  (poolPer.filter fun r => r ≠ reservedRoleProject, poolPer.any fun r => r = reservedRoleProject)

def withoutReservedRoles (roles : List String) : List String :=
  roles.filter fun r => r ≠ reservedRoleProject

def supplied (s : Scope) (role : String) : Option ScopeRef :=
  (s.lookup role).filter fun ref => ref.name ≠ ""

def missingIn (s : Scope) (roles : List String) : List String :=
  roles.foldl (fun missing role =>
    if (supplied s role).isNone ∧ role ∉ missing then missing ++ [role] else missing) []

def project (s : Scope) (roles : List String) : Except (List String) Scope :=
  if missingIn s roles = [] then
    .ok ((sortNames roles.dedup).filterMap fun role => (supplied s role).map fun ref => (role, ref))
  else .error (missingIn s roles)

def projectFor (s : Scope) (roles : List String) (required : String) : Except Err Scope :=
  match project s (withoutReservedRoles roles) with
  | .ok projected => .ok projected
  | .error missing => .error (.missingRoles missing required)

def scopeMap (s : Scope) : Scope.ScopeMap where
  entries := (s.map fun e =>
    (Scope.text e.1, ⟨Scope.text e.2.apiGroup, Scope.text e.2.kind, Scope.text e.2.name⟩)).pwFilter
      fun a b => a.1 ≠ b.1
  nodup := List.pairwise_map.mpr (List.pairwise_pwFilter _)

def isNameChar (c : Char) : Bool :=
  ('a' ≤ c && c ≤ 'z') || ('0' ≤ c && c ≤ '9')

/-- `unicode.ToLower` as far as `sanitizeName` can see it: outside ASCII only U+0130 and the Kelvin sign have a
lower case that it keeps. -/
def toLower (c : Char) : Char :=
  if 'A' ≤ c ∧ c ≤ 'Z' then Char.ofNat (c.toNat + 32)
  else if c.toNat = 0x130 then 'i'
  else if c.toNat = 0x212A then 'k'
  else c

def trimDashes (t : List Char) : List Char :=
  (t.dropWhile (· = '-')).rdropWhile (· = '-')

def sanitizeStep (b : List Char × Bool) (r : Char) : List Char × Bool :=
  if isNameChar r then (b.1 ++ [r], false)
  else if !b.2 ∧ 0 < b.1.length then (b.1 ++ ['-'], true)
  else b

def sanitizeName (t : List Char) : List Char :=
  trimDashes ((t.map toLower).foldl sanitizeStep ([], false)).1

def maxName : ℕ := 253

def nameParts (t : PoolTenancy) (className : String) (projected : Scope) : List (List Char) :=
  className.toList :: (if t.consumer ≠ "" then [t.consumer.toList] else []) ++
    projected.map fun e => e.2.name.toList

structure CascadeLevel where
  class_ : ResolvedClass
  tenancy : PoolTenancy
  scope : Scope
  scopeDigest : String
  poolName : String
  poolKey : Key
  deriving DecidableEq, Repr

section

variable (hash : Scope.Text → String)

def poolDigest (t : PoolTenancy) (s : Scope) : String :=
  hash (Scope.canonicalPool ⟨Scope.text t.owner, Scope.text t.consumer⟩ (scopeMap s))

def addressSpaceDigest (tenant : String) (s : Scope) : String :=
  hash (Scope.canonicalAddressSpace (Scope.text tenant) (scopeMap s))

def emptyAddressSpaceDigest : String :=
  addressSpaceDigest hash "" []

def projectAddressSpaceDigest (tenant : String) (s : Scope) (roles : List String) (required : String) :
    Except Err (Scope × String) :=
  (projectFor s roles required).map fun projected => (projected, addressSpaceDigest hash tenant projected)

def poolNameFor (t : PoolTenancy) (className : String) (projected : Scope) : String :=
  let readable := sanitizeName (['-'].intercalate (nameParts t className projected))
  let suffix := '-' :: (poolDigest hash t projected).toList.take 8
  if readable.length + suffix.length > maxName then
    String.ofList (trimDashes (readable.take (maxName - suffix.length)) ++ suffix)
  else String.ofList (readable ++ suffix)

def planLevel (consumer : String) (claimScope : Scope) (c : ResolvedClass) : Except Err CascadeLevel := do
  let (roles, perConsumer) := poolPerRoles c.spec.poolPer
  let projected ← projectFor claimScope roles "poolPer"
  let tenancy : PoolTenancy := ⟨c.project, if perConsumer then consumer else ""⟩
  let name := poolNameFor hash tenancy c.name projected
  pure ⟨c, tenancy, projected, poolDigest hash tenancy projected, name, poolStorageKey tenancy.owner name⟩

def planLevels (consumer : String) (chain : List ResolvedClass) (claimScope : Scope) :
    Except Err (List CascadeLevel) :=
  if consumer = "" then .error .noTenant
  else (chain.mapM (planLevel hash consumer claimScope)).map List.reverse

def planCascade (consumer : String) (leaf : ResolvedClass) (claimScope : Scope) : Tx (List CascadeLevel) := do
  let ancestry ← loadAncestry leaf
  Prog.ofExcept id (planLevels hash consumer ancestry claimScope)

def planScopeRangeCascade (consumer : String) (leaf : ResolvedClass) (claimScope : Scope) :
    Tx (List CascadeLevel) := do
  let ancestry ← loadAncestry leaf
  Prog.ofExcept id (planLevels hash consumer (leaf :: ancestry) claimScope)

end

end Ipam.Cascade
