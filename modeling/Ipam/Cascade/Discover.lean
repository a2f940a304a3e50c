import Mathlib.Data.Int.Log
import Ipam.Lib.Requests
import Ipam.Cascade.Ensure

namespace Ipam.Cascade

open Allocation Allocator Database Transaction

def halfEven (q : ℚ) : ℤ :=
  if q - ⌊q⌋ < 1 / 2 ∨ q - ⌊q⌋ = 1 / 2 ∧ ⌊q⌋ % 2 = 0 then ⌊q⌋ else ⌊q⌋ + 1

def roundBits (p : ℕ) (q : ℚ) : ℚ :=
  if q = 0 then 0 else halfEven (q / 2 ^ (Int.log 2 q - p + 1)) * 2 ^ (Int.log 2 q - p + 1)

def float64 (q : ℚ) : ℚ :=
  roundBits 53 q

def utilizationPercent (total consumed : ℕ) : ℚ :=
  if total = 0 then 0
  else
    -- the quotient has the precision of its operands, at least 64 bits
    let ratio := roundBits (max 64 (max consumed.size total.size)) ((consumed : ℚ) / total)
    let pct := float64 ratio
    float64 (⌊float64 (float64 (pct * 100) * 10000) + 1 / 2⌋ / 10000)

def IPPool.utilization (pool : IPPool) : ℚ :=
  match pool.capacity with
  | none => 0
  | some capacity => utilizationPercent capacity.total capacity.allocated

def chainRoot (leaf : ResolvedClass) : Tx ResolvedClass := do
  let ancestry ← loadAncestry leaf
  pure (ancestry.getLastD leaf)

def offeringPools (c : ResolvedClass) (s : Db) : List (Key × IPPool) :=
  (s.objects.filterMap fun
    | (.object p .ippools ns name, .pool pool) =>
      if p = c.project ∧ c.name ∈ pool.classNames ∧ effectivePoolFamily pool = c.spec.ipFamily then
        some (.object p .ippools ns name, pool)
      else none
    | _ => none).insertionSort fun a b => keyName a.1 ≤ keyName b.1

def poolServesScope (pool : IPPool) (claimScope : Scope) : Bool :=
  pool.scope.all fun declared => claimScope.lookup declared.1 = some declared.2

def preferPool (strategy : Option PoolSelection) (candidate best : IPPool) : Bool :=
  strategy = some .leastUtilized && IPPool.utilization candidate < IPPool.utilization best

def bestPool (strategy : Option PoolSelection) : List (Key × IPPool) → Option Key
  | [] => none
  | first :: rest =>
    some (rest.foldl (fun best candidate => if preferPool strategy candidate.2 best.2 then candidate else best)
      first).1

def discoverPool (c : ResolvedClass) (claimScope : Scope) : Tx Key := do
  let root ← chainRoot c
  let s : Db ← send .select
  let candidates := (offeringPools root s).filter fun e => poolServesScope e.2 claimScope
  Prog.ofOption .noOfferingPool (bestPool c.spec.strategy candidates)

abbrev Handler := Request postgres

def discoverInTx (c : ResolvedClass) (claimScope : Scope) : Handler Key :=
  Request.rollback (discoverPool c claimScope)

def ensureLevels (emptyDigest : String) : List CascadeLevel → Key → Handler Key
  | [], source => pure source
  | level :: rest, source => do
    let ensured ← Request.transact (ensureLevel emptyDigest level source)
    ensureLevels emptyDigest rest ensured.1

section

variable (hash : Scope.Text → String)

def resolvePool (consumer : String) (leaf : ResolvedClass) (claimScope : Scope) : Handler Key := do
  let levels ← Request.rollback (planCascade hash consumer leaf claimScope)
  match levels with
  | [] => discoverInTx leaf claimScope
  | first :: rest => do
    let source ← discoverInTx first.class_ claimScope
    ensureLevels (emptyAddressSpaceDigest hash) (first :: rest) source

def resolveScopeRange (consumer : String) (leaf : ResolvedClass) (claimScope : Scope) : Handler Key :=
  if leaf.spec.poolPer = [] then Request.throw .classHoldsNoRange
  else do
    let levels ← Request.rollback (planScopeRangeCascade hash consumer leaf claimScope)
    match levels with
    | [] => Request.throw .chainTooDeep
    | first :: rest => do
      let source ← discoverInTx first.class_ claimScope
      ensureLevels (emptyAddressSpaceDigest hash) (first :: rest) source

end

end Ipam.Cascade
