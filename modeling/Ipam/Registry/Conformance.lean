import Ipam.Registry.Status

namespace Ipam.Registry

open Allocation Allocator Cascade Database Transaction

def IPPool.admits (pool : IPPool) (n : ℤ) : Prop :=
  (0 < pool.minPrefixLength → pool.minPrefixLength ≤ n) ∧ (0 < pool.maxPrefixLength → n ≤ pool.maxPrefixLength)

def ClaimRequest.WithinLimits (req : ClaimRequest) (s : Db) : Prop :=
  ∀ class_ n k pool, req.Names s class_ → class_.spec.parentClassName = none →
    effectivePrefixLength class_.spec req.claim.prefixLength = .ok n → req.Picks class_ s k → s.pool k = some pool →
    IPPool.admits pool n

structure Conforms (req : ClaimRequest) (class_ : ResolvedClass) (pool : IPPool) (p b : Cidr) : Prop where
  inside : b.within p = true
  aligned : b.size ∣ b.addr
  requested : ∀ n, req.claim.prefixLength = some n → b.len = n
  unrequested : req.claim.prefixLength = none → b.len = class_.spec.defaultPrefixLength ∨
    class_.spec.defaultPrefixLength = 0 ∧ class_.spec.allowedPrefixLengths = some ((b.len : ℤ), (b.len : ℤ))
  allowed : ∀ low high, class_.spec.allowedPrefixLengths = some (low, high) → low ≤ b.len ∧ b.len ≤ high
  admitted : IPPool.admits pool b.len
  family : class_.spec.ipFamily = some b.family
  stated : ∀ f, req.claim.ipFamily = some f → f = b.family
  address : ∀ a, req.claim.address = some a → b = a

theorem requestedLength_eq {spec : IPClass} {requested : Option ℤ} {n : ℤ} (h : requestedLength spec requested = some n) :
    (∀ m, requested = some m → n = m) ∧ (requested = none → n = spec.defaultPrefixLength ∨
      spec.defaultPrefixLength = 0 ∧ spec.allowedPrefixLengths = some (n, n)) := by
  cases requested with
  | some m =>
    obtain rfl : m = n := Option.some.inj h
    simp
  | none =>
    refine ⟨by simp, fun _ => ?_⟩
    simp only [requestedLength] at h
    split at h
    · exact .inl (Option.some.inj h).symm
    · rename_i hdefault
      split at h
      · rename_i low high hallowed
        split at h
        · rename_i heq
          obtain rfl := Option.some.inj h
          exact .inr ⟨not_not.mp hdefault, heq ▸ hallowed⟩
        · cases h
      · cases h

theorem effectivePrefixLength_eq {spec : IPClass} {requested : Option ℤ} {n : ℤ}
    (h : effectivePrefixLength spec requested = .ok n) :
    requestedLength spec requested = some n ∧ 0 < n ∧
      ∀ low high, spec.allowedPrefixLengths = some (low, high) → low ≤ n ∧ n ≤ high := by
  simp only [effectivePrefixLength] at h
  split at h
  · cases h
  rename_i length hlength
  split at h
  · cases h
  rename_i hallowed
  split at h
  · cases h
  rename_i hpos
  rw [ite_eq_iff] at h
  obtain ⟨-, hfalse⟩ | ⟨-, heq⟩ := h
  · cases hfalse
  obtain rfl := Except.ok.inj heq
  refine ⟨hlength, by omega, ?_⟩
  intro low high hrange
  simp only [hrange, Option.any_some, Bool.or_eq_true, decide_eq_true_eq, not_or, not_lt] at hallowed
  exact hallowed

theorem classMatches_family {claim : IPClaim} {class_ : ResolvedClass} (h : classMatches claim class_ = .ok ()) :
    ∀ f, claim.ipFamily = some f → class_.spec.ipFamily = some f := by
  intro f hf
  simp only [classMatches] at h
  split at h
  · cases h
  rename_i hagree
  simp only [hf, Option.isSome_some, true_and, not_not] at hagree
  exact hagree.symm

section

variable {hash : Scope.Text → String} {s s' : Db} {req : ClaimRequest} {class_ : ResolvedClass} {claim : IPClaim}
  {L : Ledger} {k : Key} {pool : IPPool} {p : Cidr}

theorem ClaimRequest.Names.inj {c c' : ResolvedClass} (h : req.Names s c) (h' : req.Names s c') : c = c' :=
  congrArg Prod.fst (Except.ok.inj (h.symm.trans h'))

theorem stored_pool_core (h : s.ledger.objects k = some (.pool pool)) : ∃ stored, s.pool k = some stored ∧
    stored.core = pool := by
  have hpool : s.ledger.pool k = some pool := by simp [Ledger.pool, h]
  rw [ledger_pool] at hpool
  exact Option.map_eq_some_iff.mp hpool

theorem withinLimits_iff (hhash : Function.Injective hash) (hfamilies : Families hash L) (hnames : req.Names s class_)
    {n : ℤ} (hn : effectivePrefixLength class_.spec req.claim.prefixLength = .ok n)
    (hdraws : Draws hash L req.tenant req.claim.scope class_ k) (hpool : L.objects k = some (.pool pool))
    (hpicks : class_.spec.parentClassName = none → L = s.ledger ∧ req.Picks class_ s k) :
    req.WithinLimits s ↔ IPPool.admits pool n := by
  cases hdraws with
  | offered hroot _ =>
    obtain ⟨rfl, hpick⟩ := hpicks hroot
    obtain ⟨stored, hstored, rfl⟩ := stored_pool_core hpool
    constructor
    · exact fun h => h class_ n k stored hnames hroot hn hpick hstored
    · intro hadmits c m k' pool' hnames' _ hm hpick' hpool'
      obtain rfl := hnames.inj hnames'
      obtain rfl := Except.ok.inj (hn.symm.trans hm)
      obtain rfl := Option.some.inj (hpick.symm.trans hpick')
      obtain rfl := Option.some.inj (hstored.symm.trans hpool')
      exact hadmits
  | provisioned hparent hplan hdefined hidentity =>
    -- a pool that the cascade provisions has no limits, and the class it serves has a parent
    obtain ⟨tenancy, scope, pool', p, hprovided, -, -⟩ := hfamilies.provided hhash hplan hdefined hidentity
    have hsame := hprovided.stored.symm.trans hpool
    obtain rfl : pool' = pool := by simpa using hsame
    obtain ⟨hmin, hmax⟩ := hprovided.unlimited
    refine ⟨fun _ => by simp [IPPool.admits, hmin, hmax], ?_⟩
    intro _ c m k' stored hnames' hroot
    obtain rfl := hnames.inj hnames'
    obtain ⟨name, hname, -⟩ := hparent.names
    rw [hroot] at hname
    cases hname

theorem createClaim_conforms (hhash : Function.Injective hash)
    (hs : Served (serveCall hash) (Call.StatesFamily hash) Db.empty s)
    (hclaim : (createClaim hash req s).1 = .ok claim) (htarget : req.claim.target = .block) :
    ∃ class_ poolKey pool, ∃ p b : Cidr, req.Names s class_ ∧ claim.poolRef = some (keyName poolKey) ∧
      ((createClaim hash req).after s).ledger.objects poolKey = some (.pool pool) ∧ IPPool.range pool = some p.net ∧
      claim.allocatedCIDR = some b ∧
      (Conforms req class_ pool p b ↔ (∀ a, req.claim.address = some a → b = a) ∧ req.WithinLimits s) := by
  obtain ⟨htabled, hc, hranged, hfamilies⟩ := called_familiar hhash hs
  obtain ⟨L, hprovides, hsettles, hgranted⟩ := @createClaim_settled hash s htabled req
  obtain ⟨class_, hnames, hmatches, -, hgrants⟩ := hgranted claim hclaim
  obtain ⟨-, ⟨hrangedL, hfamiliesL⟩, -⟩ := changes_families (a := .createClaim req) hhash hc hranged hfamilies
    ⟨trivial, trivial⟩ (provides_changes hprovides)
  cases hgrants with
  | range hrange _ _ _ _ _ =>
    rw [htarget] at hrange
    cases hrange
  | @block poolKey n space mid carved pool block b _ hdraws hn _ htaken hpicks =>
    obtain ⟨p, hat, -, -, -, hwithin, hlen⟩ := hrangedL.found htaken
    obtain ⟨hrequested, hpos, hallowed⟩ := effectivePrefixLength_eq hn
    obtain ⟨hgiven, hdefault⟩ := requestedLength_eq hrequested
    have hb : (b.len : ℤ) = n := by omega
    have hfamily : class_.spec.ipFamily = some b.family := by
      rw [((Cidr.within_iff b p).mp hwithin).1]
      exact hfamiliesL.draws hhash hdraws hat.stored hat.range
    have hlimits := withinLimits_iff hhash hfamiliesL hnames hn hdraws hat.stored hpicks
    refine ⟨class_, poolKey, pool, p, b, hnames, rfl, hsettles.keepsPools _ _ hat.stored, ?_, rfl, ?_, ?_⟩
    · simp only [IPPool.range, hat.range]
    · exact fun hconforms => ⟨hconforms.address, hlimits.mpr (hb ▸ hconforms.admitted)⟩
    · rintro ⟨haddress, hwithinLimits⟩
      refine ⟨hwithin, b.size_dvd, fun m hm => hb.trans (hgiven m hm), hb ▸ hdefault, hb ▸ hallowed,
        hb ▸ hlimits.mp hwithinLimits, hfamily, ?_, haddress⟩
      intro f hf
      have hclass := classMatches_family hmatches f hf
      rw [hfamily] at hclass
      exact (Option.some.inj hclass).symm

end

theorem zero_lt_byte : 0 < 256 := by decide

theorem hostAddress_addr_lt (n : Fin 256) : 10 * 2 ^ 24 + n.val < 2 ^ Family.v4.bits := by
  simp only [Family.bits]
  omega

def hostAddress (n : Fin 256) : Cidr :=
  ⟨.v4, 10 * 2 ^ 24 + n, 32, by decide, by simp [blockSize, Family.bits], hostAddress_addr_lt n, by simp⟩

def resolvedHosts : ResolvedClass :=
  ⟨hostsClass, "hosts", "infra", "hosts"⟩

def reportRequest (name : String) (range : Cidr) : StatusRequest :=
  .pool { offeringRequest name range 0 with
    pool := { (offeringRequest name range 0).pool with allocatedCIDR := some range } }

def limitedPools : Db :=
  serveCall byteChars (.request (.createPool (offeringRequest "spare" annexRange 28))) (hostsDb 32)

def limitedDb : Db :=
  serveCall byteChars (.status (reportRequest "office" officePool)) limitedPools

theorem limitedDb_run : Served (serveCall byteChars) (Call.StatesFamily byteChars) Db.empty limitedDb := by
  have hkeeps : Call.StatesFamily byteChars (.status (reportRequest "office" officePool)) limitedPools := by
    intro old hold
    have hrange : ((limitedPools.pool officeKey).all fun old => old.allocatedCIDR = some officePool) = true := by
      decide +kernel
    rw [show limitedPools.pool officeKey = some old from hold] at hrange
    exact (of_decide_eq_true hrange).symm
  have hpools : FamilyRun byteChars (hostsDb 32) :=
    .serve _ (.serve _ .start hostsClassRequest_stated) (offeringRequest_stated rfl)
  exact .serve _ (.serve _ hpools.called (offeringRequest_stated rfl)) hkeeps

/-- The pool that is picked has a limit and keeps to it; the other one that offers the class would not. -/
theorem createClaim_conforms_limited :
    Served (serveCall byteChars) (Call.StatesFamily byteChars) Db.empty limitedDb ∧
    (hostsRequest none).Picks resolvedHosts limitedDb officeKey ∧
    (limitedDb.pool officeKey).map IPPool.maxPrefixLength = some 32 ∧
    (∃ e ∈ candidatePools resolvedHosts [] limitedDb, ¬ IPPool.admits e.2 32) ∧
    ∃ claim class_ pool, ∃ p b : Cidr, (createClaim byteChars (hostsRequest none) limitedDb).1 = .ok claim ∧
      claim.allocatedCIDR = some b ∧ Conforms (hostsRequest none) class_ pool p b := by
  have hnames : (hostsRequest none).Names limitedDb resolvedHosts := by
    change postgres.run _ limitedDb = .ok (resolvedHosts, limitedDb)
    decide +kernel
  have hpicks : (hostsRequest none).Picks resolvedHosts limitedDb officeKey := by
    change bestPool _ _ = _
    decide +kernel
  have hlimit : (limitedDb.pool officeKey).map (fun pool => (pool.minPrefixLength, pool.maxPrefixLength)) =
      some (0, 32) := by decide +kernel
  have hlimits : (hostsRequest none).WithinLimits limitedDb := by
    intro class_ n k pool hnames' _ hn hpicks' hpool
    obtain rfl := hnames.inj hnames'
    obtain rfl : 32 = n := Except.ok.inj hn
    obtain rfl := Option.some.inj (hpicks.symm.trans hpicks')
    rw [hpool] at hlimit
    obtain ⟨hmin, hmax⟩ := Prod.mk.inj (Option.some.inj hlimit)
    simp [IPPool.admits, hmin, hmax]
  have hother : ((candidatePools resolvedHosts [] limitedDb).any fun e => e.2.maxPrefixLength = 28) = true := by
    decide +kernel
  have hbound : ((createClaim byteChars (hostsRequest none) limitedDb).1.toOption).isSome = true := by decide +kernel
  refine ⟨limitedDb_run, hpicks, by decide +kernel, ?_, ?_⟩
  · obtain ⟨e, he, hmax⟩ := List.any_eq_true.mp hother
    refine ⟨e, he, fun hadmits => ?_⟩
    have hle := hadmits.2
    rw [of_decide_eq_true hmax] at hle
    omega
  · cases hclaim : (createClaim byteChars (hostsRequest none) limitedDb).1 with
    | error e =>
      rw [hclaim] at hbound
      cases hbound
    | ok claim =>
      obtain ⟨class_, poolKey, pool, p, b, -, -, -, -, hb, hconforms⟩ :=
        createClaim_conforms byteChars_injective limitedDb_run hclaim rfl
      exact ⟨claim, class_, pool, p, b, rfl, hb, hconforms.mpr ⟨by rintro a ⟨⟩, hlimits⟩⟩

def localRange : Cidr := ⟨.v6, 0xfd * 2 ^ 120, 24, by decide, by decide, by decide, by decide⟩

def localBlock : Cidr := ⟨.v6, 0xfd * 2 ^ 120, 32, by decide, by decide, by decide, by decide⟩

def claimedBlock (req : ClaimRequest) (s : Db) : Option Cidr :=
  (createClaim byteChars req s).1.toOption.bind IPClaim.allocatedCIDR

/-- An address that the claim names is not read, nor are the limits of the pool, and a range written to the status of
a pool takes the place of its own, here for a class of IPv4. -/
theorem createClaim_ignores :
    claimedBlock (hostsRequest (some (hostAddress 5))) (hostsDb 0) = some (hostAddress 0) ∧
    claimedBlock (hostsRequest none) (hostsDb 28) = some (hostAddress 0) ∧
    claimedBlock (hostsRequest none) (serveCall byteChars (.status (reportRequest "office" localRange)) (hostsDb 0)) =
      some localBlock := by
  decide +kernel

end Ipam.Registry
