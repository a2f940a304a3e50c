import Ipam.Registry.Families
import Ipam.Registry.Floors

/-!
The `/status` subresources. A write keeps the spec of the stored object, takes the status of the request and is checked
by no validation. The annotation that marks a default class comes with the request too.
-/

namespace Ipam.Registry

open Allocation Allocator Cascade Database Transaction

def ipClassStatusStrategy : Strategy IPClass :=
  { ipClassStrategy with
    prepareForUpdate := fun new old => { old with isDefault := new.isDefault }
    validateUpdate := fun _ _ _ => true }

def ipPoolStatusStrategy : Strategy IPPool :=
  { ipPoolStrategy with
    prepareForUpdate := fun new old =>
      { old with
        allocatedCIDR := new.allocatedCIDR
        statusFamily := new.statusFamily
        scopeDigest := new.scopeDigest
        capacity := new.capacity }
    validateUpdate := fun _ _ _ => true }

def ipClaimStatusStrategy : Strategy IPClaim :=
  { ipClaimStrategy with
    prepareForUpdate := fun new old =>
      { old with
        phase := new.phase
        allocatedCIDR := new.allocatedCIDR
        poolRef := new.poolRef
        boundAllocationRef := new.boundAllocationRef }
    validateUpdate := fun _ _ _ => true }

def ipAllocationStatusStrategy : Strategy IPAllocation :=
  { ipAllocationStrategy with
    prepareForUpdate := fun new old => { old with allocatedCIDR := new.allocatedCIDR, scopeDigest := new.scopeDigest }
    validateUpdate := fun _ _ _ => true }

def updateStatus {T : Type} (S : Strategy T) (tenant : String) (key : Key) (obj : T) (admitted : Bool)
    (dryRun : List String) : Handler T :=
  persist dryRun (S.update tenant key obj false admitted fun _ => pure ())

inductive StatusRequest where
  | class_ (req : ClassRequest)
  | pool (req : PoolRequest)
  | claim (req : ClaimRequest)
  | allocation (req : AllocationRequest)

def serveStatus : StatusRequest → Db → Db
  | .class_ req => (updateStatus ipClassStatusStrategy req.project req.key req.class_ req.admitted req.dryRun).after
  | .pool req => (updateStatus ipPoolStatusStrategy req.project req.key req.pool req.admitted req.dryRun).after
  | .claim req => (updateStatus ipClaimStatusStrategy req.tenant req.key req.claim req.admitted req.dryRun).after
  | .allocation req =>
    (updateStatus ipAllocationStatusStrategy req.tenant req.key req.allocation req.admitted req.dryRun).after

inductive Call where
  | request (a : Action)
  | status (r : StatusRequest)

def serveCall (hash : Scope.Text → String) : Call → Db → Db
  | .request a => serve hash a
  | .status r => serveStatus r

def StatusRequest.KeepsRange (s : Db) : StatusRequest → Prop
  | .pool req => ∀ old, s.pool req.key = some old → req.pool.allocatedCIDR = old.allocatedCIDR
  | _ => True

inductive Restated : Object → Object → Prop where
  | class_ (c : IPClass) (isDefault : Bool) : Restated (.class_ c) (.class_ { c with isDefault := isDefault })
  | pool (pool : IPPool) (statusFamily : Option Family) (scopeDigest : String) (capacity : Option PoolCapacity) :
      Restated (.pool pool)
        (.pool { pool with statusFamily := statusFamily, scopeDigest := scopeDigest, capacity := capacity })
  | claim (c c' : IPClaim) : Restated (.claim c) (.claim c')
  | allocation (a a' : IPAllocation) : Restated (.allocation a) (.allocation a')

inductive Restates (s : Db) : Db → Prop where
  | same : Restates s s
  | put {k : Key} {o o' : Object} (stored : s.object k = some o) (restated : Restated o o') :
      Restates s (Effect.apply (.putObject k o') s)

theorem updateStatus_restates {T : Type} {S : Strategy T} {tenant : String} {key : Key} {obj : T} {admitted : Bool}
    {dryRun : List String} {s : Db}
    (h : ∀ o old, s.object key = some o → S.decode o = some old → Restated o (S.encode (S.prepareForUpdate obj old))) :
    Restates s ((updateStatus S tenant key obj admitted dryRun).after s) := by
  have hupdate : postgres.After s (S.update tenant key obj false admitted fun _ => pure ())
      fun _ s' => Restates s s' := by
    refine (Strategy.update_after fun _ => .pure rfl).mono ?_
    rintro new s' (⟨hforce, -⟩ | hreplaced)
    · cases hforce
    · obtain ⟨o, old, ho, hold, rfl, -⟩ := hreplaced.updated
      obtain hsame | hput := hreplaced.stored
      · exact hsame ▸ .same
      · exact hput ▸ .put ho (h o old ho hold)
  exact persist_ensures .same hupdate

theorem serveStatus_restates {s : Db} {r : StatusRequest} (hr : r.KeepsRange s) : Restates s (serveStatus r s) := by
  cases r with
  | class_ req =>
    apply updateStatus_restates
    intro o old _ hold
    cases o with
    | class_ c =>
      obtain rfl : c = old := Option.some.inj hold
      exact .class_ c req.class_.isDefault
    | pool | claim | allocation => cases hold
  | pool req =>
    apply updateStatus_restates
    intro o old ho hold
    cases o with
    | pool pool =>
      obtain rfl : pool = old := Option.some.inj hold
      have hrange : req.pool.allocatedCIDR = pool.allocatedCIDR := by
        apply hr
        rw [pool_eq_asPool, ho]
        rfl
      have hrestated := Restated.pool pool req.pool.statusFamily req.pool.scopeDigest req.pool.capacity
      simp only [ipPoolStatusStrategy, hrange]
      exact hrestated
    | class_ | claim | allocation => cases hold
  | claim req =>
    apply updateStatus_restates
    intro o old _ hold
    cases o with
    | claim c => exact .claim c _
    | pool | class_ | allocation => cases hold
  | allocation req =>
    apply updateStatus_restates
    intro o old _ hold
    cases o with
    | allocation a => exact .allocation a _
    | pool | class_ | claim => cases hold

theorem Restated.core {o o' : Object} (h : Restated o o') : Restated o.core o'.core := by
  cases h with
  | class_ c isDefault => exact .class_ c isDefault
  | pool pool statusFamily scopeDigest capacity => exact .pool pool.core none scopeDigest none
  | claim c c' => exact .claim c c'
  | allocation a a' => exact .allocation a a'

structure Restamped (pool pool' : IPPool) : Prop where
  cidr : pool'.cidr = pool.cidr
  ipFamily : pool'.ipFamily = pool.ipFamily
  parentPoolRef : pool'.parentPoolRef = pool.parentPoolRef
  minPrefixLength : pool'.minPrefixLength = pool.minPrefixLength
  maxPrefixLength : pool'.maxPrefixLength = pool.maxPrefixLength
  allocatedCIDR : pool'.allocatedCIDR = pool.allocatedCIDR

section

variable {hash : Scope.Text → String} {L : Ledger} {k : Key} {o o' : Object} (ho : L.objects k = some o)
  (h : Restated o o')

include ho h

theorem Restated.pools {k' : Key} {pool' : IPPool} (hpool : (L.put k o').objects k' = some (.pool pool')) :
    ∃ pool, L.objects k' = some (.pool pool) ∧ Restamped pool pool' := by
  obtain ⟨rfl, rfl⟩ | ⟨-, hold⟩ := Ledger.put_objects.mp hpool
  · cases h with
    | pool pool statusFamily scopeDigest capacity => exact ⟨pool, ho, rfl, rfl, rfl, rfl, rfl, rfl⟩
  · exact ⟨pool', hold, rfl, rfl, rfl, rfl, rfl, rfl⟩

theorem Restated.classes {k' : Key} {c' : IPClass} (hclass : (L.put k o').objects k' = some (.class_ c')) :
    ∃ c, L.objects k' = some (.class_ c) ∧ c'.source = c.source ∧ c'.ipFamily = c.ipFamily := by
  obtain ⟨rfl, rfl⟩ | ⟨-, hold⟩ := Ledger.put_objects.mp hclass
  · cases h with
    | class_ c isDefault => exact ⟨c, ho, rfl, rfl⟩
  · exact ⟨c', hold, rfl, rfl⟩

theorem Restated.consistent (hc : Consistent L) : Consistent (L.put k o') := by
  apply hc.put
  intro pool hpool
  obtain rfl := Option.some.inj (ho.symm.trans hpool)
  cases h with
  | pool _ statusFamily scopeDigest capacity => exact ⟨_, rfl, fun hrange => hrange⟩

theorem Restated.ranged (hranged : Ranged L) : Ranged (L.put k o') := by
  refine ⟨?_, ?_, ?_⟩
  · intro k' pool' hpool' hnone
    obtain ⟨pool, hpool, hstamp⟩ := Restated.pools ho h hpool'
    rw [hstamp.cidr]
    exact hranged.derived k' pool hpool (hstamp.allocatedCIDR.symm.trans hnone)
  · intro k' pool' p hpool' hp
    obtain ⟨pool, hpool, hstamp⟩ := Restated.pools ho h hpool'
    exact hranged.unmapped k' pool p hpool (hstamp.allocatedCIDR.symm.trans hp)
  · intro r hr pool' p hpool' hp
    obtain ⟨pool, hpool, hstamp⟩ := Restated.pools ho h hpool'
    exact hranged.rows r hr pool p hpool (hstamp.allocatedCIDR.symm.trans hp)

theorem Restated.families (hc : Consistent L) (hfamilies : Families hash L) : Families hash (L.put k o') := by
  refine ⟨?_, ?_, ?_⟩
  · intro k' pool' p hpool' hp
    obtain ⟨pool, hpool, hstamp⟩ := Restated.pools ho h hpool'
    rw [hstamp.ipFamily]
    exact hfamilies.pools k' pool p hpool (hstamp.allocatedCIDR.symm.trans hp)
  · intro k' c' hc' hsource
    obtain ⟨c, hc, hsame, hfamily⟩ := Restated.classes ho h hc'
    rw [hfamily]
    exact hfamilies.classes k' c hc (hsame.symm.trans hsource)
  · intro i hi
    obtain ⟨tenancy, scope, pool, p, hprovided⟩ := hfamilies.identities i hi
    -- the identity still names a pool, which the write may have stamped anew
    obtain ⟨pool', hpool'⟩ := (Restated.consistent ho h hc).identities i hi
    obtain ⟨stored, hstored, hstamp⟩ := Restated.pools ho h hpool'
    have hsame := hstored.symm.trans hprovided.stored
    obtain rfl : stored = pool := by simpa using hsame
    refine ⟨tenancy, scope, pool', p, hprovided.digest, hprovided.key, hpool', hstamp.allocatedCIDR.trans hprovided.range,
      ?_, ?_, ?_, ?_, hprovided.carve⟩
    · rw [hstamp.parentPoolRef]
      exact hprovided.child
    · rw [hstamp.minPrefixLength, hstamp.maxPrefixLength]
      exact hprovided.unlimited
    · rw [hstamp.ipFamily]
      exact hprovided.stated
    · intro c' hc' hsource
      obtain ⟨c, hc, hsame, hfamily⟩ := Restated.classes ho h hc'
      rw [hstamp.ipFamily, hfamily]
      exact hprovided.class_ c hc (hsame.symm.trans hsource)

end

section

variable {hash : Scope.Text → String} {s s' : Db}

theorem stored_core {k : Key} {o : Object} (h : s.object k = some o) : s.ledger.objects k = some o.core := by
  simp only [Db.ledger, h, Option.map_some]

theorem Restates.tabled (h : Restates s s') (hs : s.Tabled) : s'.Tabled := by
  cases h with
  | same => exact hs
  | put _ _ => exact tabled_apply hs _

theorem Restates.upholds {I : Ledger → Prop} (h : Restates s s') (hI : I s.ledger)
    (hput : ∀ {k o o'}, s.ledger.objects k = some o → Restated o o' → I (s.ledger.put k o')) : I s'.ledger := by
  cases h with
  | same => exact hI
  | @put k o o' hstored hrestated =>
    have hledger : (Effect.apply (.putObject k o') s).ledger = s.ledger.put k o'.core := ledger_apply (.putObject k o') s
    rw [hledger]
    exact hput (stored_core hstored) hrestated.core

theorem Restates.familiar (h : Restates s s') (hs : Familiar hash s) : Familiar hash s' := by
  refine ⟨h.tabled hs.tabled, ?_, ?_, ?_⟩
  · exact h.upholds hs.consistent fun ho hr => hr.consistent ho hs.consistent
  · exact h.upholds hs.ranged fun ho hr => hr.ranged ho hs.ranged
  · exact h.upholds hs.families fun ho hr => hr.families ho hs.consistent hs.families

theorem Restates.maintained (h : Restates s s') (hs : Maintained s) : Maintained s' := by
  refine ⟨?_, ?_, ?_⟩
  · exact h.upholds hs.consistent fun ho hr => hr.consistent ho hs.consistent
  · exact h.upholds hs.ranged fun ho hr => hr.ranged ho hs.ranged
  · cases h with
    | same => exact hs.upkept
    | @put k o o' hstored hrestated =>
      have hpool := pool_of_object hstored
      cases hrestated with
      | pool pool statusFamily scopeDigest capacity => exact hs.upkept.replace_pool hpool rfl
      | class_ | claim | allocation => exact hs.upkept.put_other hpool rfl

def Call.StatesFamily (hash : Scope.Text → String) : Call → Db → Prop
  | .request a, s => a.Unmapped ∧ a.StatesFamily hash s.ledger
  | .status r, s => r.KeepsRange s

def Call.Unmapped : Call → Db → Prop
  | .request a, _ => a.Unmapped
  | .status r, s => r.KeepsRange s

theorem FamilyRun.called (h : FamilyRun hash s) : Served (serveCall hash) (Call.StatesFamily hash) Db.empty s := by
  induction h with
  | start => exact .start
  | serve a _ ha ih => exact .serve (Call.request a) ih ha

theorem called_familiar (hhash : Function.Injective hash)
    (h : Served (serveCall hash) (Call.StatesFamily hash) Db.empty s) : Familiar hash s := by
  refine Served.inv empty_familiar ?_ h
  intro c s hs hc
  cases c with
  | request a => exact serve_familiar hhash hs hc
  | status r => exact (serveStatus_restates hc).familiar hs

theorem called_maintained (h : Served (serveCall hash) Call.Unmapped Db.empty s) : s.Tabled ∧ Maintained s := by
  refine Served.inv (I := fun s => s.Tabled ∧ Maintained s) ⟨List.nodup_nil, empty_maintained⟩ ?_ h
  rintro c s ⟨htabled, hs⟩ hc
  cases c with
  | request a => exact ⟨serve_tabled htabled a, serve_maintained htabled hs hc⟩
  | status r => exact ⟨(serveStatus_restates hc).tabled htabled, (serveStatus_restates hc).maintained hs⟩

end

end Ipam.Registry
