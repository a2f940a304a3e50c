import Ipam.Database.Statements

namespace Ipam.Database

open Allocation Transaction

inductive Lock where
  | object (k : Key)
  | row (allocationKey : Key)
  | claimKey (k : Key)
  | floor (pool : Key) (digest : String)
  | consumption (pool : Key)
  | identity (className digest : String)
  -- held by a transaction that has deleted a row of the pool, and by one that has inserted a floor for it
  | deleted (pool : Key)
  | seeded (pool : Key)
  deriving DecidableEq, Repr

def Lock.conflicts : Lock → Lock → Bool
  | .deleted _, _ => false
  | .seeded _, _ => false
  | l, m => l = m

def rowLocks (r : Row) : List Lock :=
  .row r.allocationKey :: r.claimKey.toList.map .claimKey

def exec : (q : Stmt) → Db → Except Err (Res q × List Effect)
  | .getObject k, s => .ok (s.object k, [])
  | .lockObject k, s => .ok (s.object k, [])
  | .insertObject k o, s => if (s.object k).isSome then .error .objectExists else .ok ((), [.putObject k o])
  | .updateObject k o, s => if (s.object k).isNone then .error .objectNotFound else .ok ((), [.putObject k o])
  | .deleteObject k, s =>
    if s.rows.any fun r => r.poolKey = k then .error .poolInUse else .ok ((), [.removeObject k])
  | .holdsReservations pool, s => .ok ((s.poolRows pool).any fun r => r.purpose = .reservation, [])
  | .loadAllocations pool digest, s => .ok (blocksIn digest (s.poolRows pool), [])
  | .loadBlocksCovering pool digest start parent, s =>
    .ok (coveringBlocks (blocksIn digest (s.poolRows pool)) start parent, [])
  | .loadBlocksFrom pool digest start parent limit, s =>
    .ok (blocksFrom (blocksIn digest (s.poolRows pool)) start parent limit, [])
  | .loadOverlapping pool block, s =>
    .ok (((s.poolRows pool).map Row.cidr).filter fun c => c.overlaps block, [])
  | .insertReservation r, s =>
    if (s.poolRows r.poolKey).any fun o => o.cidr.overlaps r.cidr then .ok (false, [])
    else (insertRow s r).map fun es => (true, es)
  | .insertAllocation r, s => (insertRow s r).map fun es => ((), es)
  | .retainAllocations claim, s =>
    let keys := (s.rows.filter fun r => r.claimKey = some claim && r.reclaimPolicy = .retain).map Row.allocationKey
    .ok (keys, keys.map fun k => .setClaimKey k none)
  | .deleteAllocations cond, s =>
    .ok (cond.select s.rows, (cond.select s.rows).map fun r => .deleteRow r.poolKey r.allocationKey)
  | .floorsToLower old, s =>
    .ok (((s.poolFloors old.poolKey).map Prod.fst).filter fun d => old.purpose ≠ .claim || d = old.scopeDigest, [])
  | .lowerFloor pool digest addr, s =>
    match floorAt (s.poolFloors pool) digest with
    | some floor => .ok ((), [.setFloor pool digest (least floor addr)])
    | none => .ok ((), [])
  | .seedFloor pool digest base, s =>
    match floorAt (s.poolFloors pool) digest with
    | some _ => .ok ((), [])
    | none =>
      if (s.object pool).isNone then .error .poolMissing else .ok ((), [.insertFloor pool digest base])
  | .lockFloor pool digest, s => .ok (floorAt (s.poolFloors pool) digest, [])
  | .raiseFloor pool digest next observed, s =>
    if floorAt (s.poolFloors pool) digest = some observed then .ok ((), [.setFloor pool digest next])
    else .ok ((), [])
  | .readConsumed pool, s => .ok (s.consumed pool, [])
  | .writeConsumed pool n, s =>
    if (s.object pool).isNone then .error .poolMissing else .ok ((), [.putConsumed pool n])
  | .bindScopeRange pool claim, s =>
    match s.rows.find? fun r => r.allocationKey = pool && r.purpose = .poolCarve && r.claimKey = some pool with
    | none => .ok (none, [])
    | some r =>
      if s.rows.any fun o => o.claimKey = some claim && o.allocationKey ≠ pool then .error .claimKeyTaken
      else .ok (some r.cidr, [.setClaimKey pool (some claim)])
  | .carveOf pool, s =>
    .ok (s.rows.find? fun r => r.allocationKey = pool && r.purpose = .poolCarve, [])
  | .findScopeRange claim, s =>
    .ok ((s.rows.find? fun r => r.claimKey = some claim && r.purpose = .poolCarve).map Row.allocationKey, [])
  | .occupants pool, s =>
    .ok (s.rows.filter fun r => r.poolKey = pool && r.purpose ≠ .reservation, [])
  | .lookupPoolIdentity className digest, s =>
    .ok ((s.identities.find? fun i => i.className = className && i.scopeDigest = digest).map Identity.poolKey, [])
  | .claimPoolIdentity i, s =>
    if s.identities.any fun o => o.className = i.className && o.scopeDigest = i.scopeDigest then .ok (false, [])
    else .ok (true, [.insertIdentity i])
  | .select, s => .ok (s, [])

def locks : Stmt → Db → List Lock
  | .lockObject k, s => if (s.object k).isSome then [.object k] else []
  | .insertObject k _, _ => [.object k]
  | .updateObject k _, _ => [.object k]
  | .deleteObject k, _ => [.object k]
  | .insertReservation r, s =>
    if (s.poolRows r.poolKey).any fun o => o.cidr.overlaps r.cidr then [] else rowLocks r
  | .insertAllocation r, _ => rowLocks r
  | .retainAllocations claim, s =>
    (s.rows.filter fun r => r.claimKey = some claim && r.reclaimPolicy = .retain).flatMap rowLocks
  | .deleteAllocations cond, s =>
    (cond.select s.rows).flatMap fun r => .deleted r.poolKey :: rowLocks r
  | .lowerFloor pool digest _, s =>
    if (floorAt (s.poolFloors pool) digest).isSome then [.floor pool digest] else []
  | .seedFloor pool digest _, s =>
    if (floorAt (s.poolFloors pool) digest).isSome then [] else [.floor pool digest, .seeded pool]
  | .lockFloor pool digest, s =>
    if (floorAt (s.poolFloors pool) digest).isSome then [.floor pool digest] else []
  | .raiseFloor pool digest _ observed, s =>
    if floorAt (s.poolFloors pool) digest = some observed then [.floor pool digest] else []
  | .writeConsumed pool _, _ => [.consumption pool]
  | .bindScopeRange pool claim, s =>
    (s.rows.filter fun r => r.allocationKey = pool && r.purpose = .poolCarve && r.claimKey = some pool).flatMap
      fun r => .claimKey claim :: rowLocks r
  | .claimPoolIdentity i, s =>
    if s.identities.any fun o => o.className = i.className && o.scopeDigest = i.scopeDigest then []
    else [.identity i.className i.scopeDigest]
  | _, _ => []

def postgres : Transaction.Database Stmt Res Err Db Effect Lock where
  apply := Effect.apply
  exec := exec
  locks := locks

section

variable {k : Key} {o : Object} {s : Db} {es : List Effect}

theorem insertObject_ok {r : Unit} (h : postgres.exec (.insertObject k o) s = .ok (r, es)) :
    s.object k = none ∧ es = [.putObject k o] := by
  change (if _ then _ else _) = _ at h
  split at h
  · cases h
  · rename_i habsent
    exact ⟨by simpa using habsent, (Prod.mk.inj (Except.ok.inj h)).2.symm⟩

theorem updateObject_ok {r : Unit} (h : postgres.exec (.updateObject k o) s = .ok (r, es)) :
    s.object k ≠ none ∧ es = [.putObject k o] := by
  change (if _ then _ else _) = _ at h
  split at h
  · cases h
  · rename_i hstored
    exact ⟨by simpa using hstored, (Prod.mk.inj (Except.ok.inj h)).2.symm⟩

theorem deleteObject_ok {r : Unit} (h : postgres.exec (.deleteObject k) s = .ok (r, es)) :
    (∀ r ∈ s.rows, r.poolKey ≠ k) ∧ es = [.removeObject k] := by
  change (if _ then _ else _) = _ at h
  split at h
  · cases h
  · rename_i hfree
    exact ⟨by simpa using hfree, (Prod.mk.inj (Except.ok.inj h)).2.symm⟩

end

end Ipam.Database
