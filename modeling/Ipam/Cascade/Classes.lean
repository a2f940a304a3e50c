import Ipam.Allocator.Prefix

namespace Ipam.Cascade

open Allocation Allocator Database Transaction

def maxClassChainDepth : ℕ := 8

structure ResolvedClass where
  spec : IPClass
  name : String
  project : String
  localName : String
  deriving DecidableEq, Repr

def classStorageKey (project name : String) : Key :=
  .object project .ipclasses "" name

def poolStorageKey (project name : String) : Key :=
  .object project .ippools "" name

def sortNames (names : List String) : List String :=
  names.insertionSort (· ≤ ·)

def asClass : Option Object → Option IPClass
  | some (.class_ c) => some c
  | _ => none

def loadClassIn (project name : String) : Tx IPClass := do
  let o : Option Object ← send (.getObject (classStorageKey project name))
  Prog.ofOption .classNotFound (asClass o)

def resolveClassIn (project name : String) : Tx ResolvedClass := do
  let found ← loadClassIn project name
  match found.source with
  | none => pure ⟨found, name, project, name⟩
  | some src => do
    let target ← loadClassIn src.1 src.2
    -- a reference resolves in one hop
    match target.source with
    | some _ => .throw .chainedReference
    | none => pure ⟨target, src.2, src.1, name⟩

def loadClass (project name : String) : Tx ResolvedClass :=
  if project = "" then .throw .noTenant else resolveClassIn project name

def defaultClassNames (project : String) (s : Db) : List String :=
  sortNames (s.objects.filterMap fun
    | (.object p .ipclasses _ name, .class_ c) => if p = project ∧ c.isDefault then some name else none
    | _ => none)

def firstOfFamily (project : String) (family : Family) : List String → Tx ResolvedClass
  | [] => .throw .noDefaultClass
  | name :: rest => do
    let resolved ← resolveClassIn project name
    if resolved.spec.ipFamily = some family then pure resolved else firstOfFamily project family rest

def loadDefaultClass (project : String) (family : Family) : Tx ResolvedClass :=
  if project = "" then .throw .noTenant
  else do
    let s : Db ← send .select
    firstOfFamily project family (defaultClassNames project s)

def resolveClass (project className : String) (family : Option Family) : Tx ResolvedClass :=
  if className ≠ "" then loadClass project className
  else
    match family with
    | none => .throw .noDefaultClass
    | some family => loadDefaultClass project family

def ancestryFrom (leaf : ResolvedClass) : ℕ → ResolvedClass → List Key → Tx (List ResolvedClass)
  | 0, _, _ => .throw .chainTooDeep
  | turns + 1, current, seen =>
    match current.spec.parentClassName with
    | none => pure []
    | some parentName => do
      let parent ← resolveClassIn current.project parentName
      let key := classStorageKey parent.project parent.name
      if key ∈ seen then .throw .chainTooDeep
      else if parent.spec.ipFamily ≠ leaf.spec.ipFamily then .throw .familyMismatch
      else do
        let rest ← ancestryFrom leaf turns parent (key :: seen)
        pure (parent :: rest)

def loadAncestry (leaf : ResolvedClass) : Tx (List ResolvedClass) :=
  ancestryFrom leaf (maxClassChainDepth + 1) leaf [classStorageKey leaf.project leaf.name]

def requestedLength (spec : IPClass) (requested : Option ℤ) : Option ℤ :=
  match requested with
  | some length => some length
  | none =>
    if spec.defaultPrefixLength ≠ 0 then some spec.defaultPrefixLength
    else
      match spec.allowedPrefixLengths with
      | some (low, high) => if low = high then some low else none
      | none => none

def effectivePrefixLength (spec : IPClass) (requested : Option ℤ) : Except Err ℤ :=
  match requestedLength spec requested with
  | none => .error .noPrefixLength
  | some length =>
    if spec.allowedPrefixLengths.any fun r => length < r.1 || r.2 < length then .error .prefixLengthRejected
    else if length ≤ 0 then .error .prefixLengthRejected
    else if (if spec.ipFamily = some .v6 then 128 else 32) < length then .error .prefixLengthRejected
    else .ok length

def effectiveReclaimPolicy (spec : IPClass) (override : Option ReclaimPolicy) : ReclaimPolicy :=
  (override.or spec.reclaimPolicy).getD .delete

end Ipam.Cascade
