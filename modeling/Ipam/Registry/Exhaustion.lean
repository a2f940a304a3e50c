import Ipam.Allocator.Exhaustion
import Ipam.Registry.Conformance

namespace Ipam.Registry

open Allocation Allocator Cascade Database Transaction

def HasRoom (hash : Scope.Text → String) (req : ClaimRequest) (class_ : ResolvedClass) (s : Db) (e : Key × IPPool) :
    Prop :=
  ∃ p n space b, e.2.allocatedCIDR = some p ∧
    effectivePrefixLength class_.spec req.claim.prefixLength = .ok n ∧
    projectAddressSpaceDigest hash req.tenant req.claim.scope class_.spec.uniqueWithin "uniqueWithin" = .ok space ∧
    Room e.1 e.2 p s.rows space.2 n b

def PicksRoom (hash : Scope.Text → String) (req : ClaimRequest) (class_ : ResolvedClass) (s : Db) : Prop :=
  ∀ k, req.Picks class_ s k → (∃ e ∈ candidatePools class_ req.claim.scope s, HasRoom hash req class_ s e) →
    ∃ pool, (k, pool) ∈ candidatePools class_ req.claim.scope s ∧ HasRoom hash req class_ s (k, pool)

theorem effectivePrefixLength_unexhausted {spec : IPClass} {requested : Option ℤ} {e : Err}
    (h : effectivePrefixLength spec requested = .error e) : Unexhausted e := by
  simp only [effectivePrefixLength] at h
  split at h
  · cases h
    simp [Unexhausted]
  split at h
  · cases h
    simp [Unexhausted]
  split at h
  · cases h
    simp [Unexhausted]
  rw [ite_eq_iff] at h
  obtain ⟨-, h⟩ | ⟨-, h⟩ := h
  · cases h
    simp [Unexhausted]
  · cases h

section

variable {hash : Scope.Text → String} {s : Db} {req : ClaimRequest} {class_ : ResolvedClass}

theorem projectAddressSpaceDigest_unexhausted {roles : List String} {required : String} {scope : Scope}
    {tenant : String} {e : Err} (h : projectAddressSpaceDigest hash tenant scope roles required = .error e) :
    Unexhausted e := by
  simp only [projectAddressSpaceDigest, projectFor] at h
  split at h
  · cases h
  · cases h
    simp [Unexhausted]

theorem resolvePool_root (hroot : class_.spec.parentClassName = none) {consumer : String} {claimScope : Scope} :
    Request.Ensures s (resolvePool hash consumer class_ claimScope) fun answer s' => s' = s ∧
      match answer with
      | .ok k => bestPool class_.spec.strategy (candidatePools class_ claimScope s) = some k
      | .error e => Unexhausted e := by
  have hancestry : loadAncestry class_ = .pure [] := by
    simp only [loadAncestry, ancestryFrom, hroot]
    rfl
  have hplan : planCascade hash consumer class_ claimScope =
      Prog.ofExcept id (planLevels hash consumer [] claimScope) := by
    simp only [planCascade, hancestry]
    rfl
  have hdiscover : discoverPool class_ claimScope = (send .select).bind fun s =>
      Prog.ofOption .noOfferingPool (bestPool class_.spec.strategy (candidatePools class_ claimScope s)) := by
    simp only [discoverPool, chainRoot, hancestry]
    rfl
  have hlevels : planLevels hash consumer [] claimScope = if consumer = "" then .error .noTenant else .ok [] := rfl
  apply Request.Ensures.bind
  apply Request.Ensures.rollback_run
  · rw [hplan]
    apply Database.After.ofExcept
    intro levels hok
    obtain rfl : levels = [] := by
      rw [hlevels] at hok
      split at hok
      · cases hok
      · exact (Except.ok.inj hok).symm
    apply Request.Ensures.rollback_run
    · rw [hdiscover]
      apply select_after
      apply Database.After.ofOption
      exact fun k hk => ⟨rfl, hk⟩
    · intro e he
      rw [hdiscover] at he
      have hraises := (send_unexhausted .select).bind fun s => Raises.ofOption
        (show Unexhausted .noOfferingPool by simp [Unexhausted])
        (bestPool class_.spec.strategy (candidatePools class_ claimScope s))
      exact ⟨rfl, hraises.run he⟩
  · intro e he
    have hraises : Raises postgres Unexhausted (planCascade hash consumer class_ claimScope) := by
      rw [hplan, hlevels]
      split
      · exact Raises.ofExcept fun e' he' => by cases he'; simp [Unexhausted]
      · trivial
    exact ⟨rfl, hraises.run he⟩

theorem after_allocatePrefix {α : Type} {ed : String} {request : PrefixRequest} {f : Cidr → Tx α}
    (hf : ∀ b, Raises postgres Unexhausted (f b))
    (h : postgres.run ((allocatePrefix ed request).bind f) s = .error (.allocation .poolExhausted)) :
    postgres.run (allocatePrefix ed request) s = .error (.allocation .poolExhausted) := by
  rw [Database.run_bind] at h
  cases hallocate : postgres.run (allocatePrefix ed request) s with
  | error e =>
    rw [hallocate] at h
    exact congrArg Except.error (Except.error.inj h)
  | ok r =>
    rw [hallocate] at h
    exact absurd rfl ((hf r.1).run h)

def RefusedAt (hash : Scope.Text → String) (req : ClaimRequest) (class_ : ResolvedClass) (s : Db) (k : Key) : Prop :=
  ∃ n space, effectivePrefixLength class_.spec req.claim.prefixLength = .ok n ∧
    projectAddressSpaceDigest hash req.tenant req.claim.scope class_.spec.uniqueWithin "uniqueWithin" = .ok space ∧
    postgres.run (allocatePrefix (emptySpace hash) (blockRequest hash req k n
      (effectiveReclaimPolicy class_.spec req.claim.reclaimPolicy) space.2)) s = .error (.allocation .poolExhausted)

theorem createBlock_refused (hroot : class_.spec.parentClassName = none) :
    Request.Ensures s (createBlock hash req (req.claimOf class_) class_) fun answer _ =>
      answer = .error (.allocation .poolExhausted) →
        ∃ k, req.Picks class_ s k ∧ RefusedAt hash req class_ s k := by
  have hstop : ∀ e : Err, Unexhausted e → (Except.error e : Except Err IPClaim) = .error (.allocation .poolExhausted) →
      ∃ k, req.Picks class_ s k ∧ RefusedAt hash req class_ s k := fun e he heq => absurd (Except.error.inj heq) he
  apply Request.Ensures.bind
  apply Request.Ensures.ofExcept_cases _ fun e he => hstop e (effectivePrefixLength_unexhausted he)
  intro n hn
  apply Request.Ensures.bind
  apply Request.Ensures.ofExcept_cases _ fun e he => hstop e (projectAddressSpaceDigest_unexhausted he)
  intro space hspace
  apply Request.Ensures.bind
  refine (resolvePool_root hroot).mono ?_
  rintro answer s₁ ⟨rfl, hanswer⟩
  cases answer with
  | error e => exact hstop e hanswer
  | ok k =>
    have hrefused : postgres.run (allocatePrefix (emptySpace hash) (blockRequest hash req k n
        (effectiveReclaimPolicy class_.spec req.claim.reclaimPolicy) space.2)) s₁ =
          .error (.allocation .poolExhausted) →
        ∃ k, req.Picks class_ s₁ k ∧ RefusedAt hash req class_ s₁ k :=
      fun h => ⟨k, hanswer, n, space, hn, hspace, h⟩
    dsimp only
    split
    · apply Request.Ensures.rollback_run
      · exact fun _ _ _ h => (nomatch h)
      · rintro e he heq
        obtain rfl := Except.error.inj heq
        exact hrefused (after_allocatePrefix (f := fun b => .pure (boundClaim hash req (req.claimOf class_) k b))
          (fun _ => trivial) he)
    · apply Request.Ensures.transact_run
      · exact fun _ _ _ h => (nomatch h)
      · rintro e he heq
        obtain rfl := Except.error.inj heq
        refine hrefused (after_allocatePrefix ?_ he)
        intro b
        apply (send_unexhausted (.insertObject (req.allocationKey hash) _)).bind
        intro _
        exact (send_unexhausted (.insertObject req.key _)).bind fun _ => trivial

theorem createClaim_refused (htarget : req.claim.target = .block) (hnames : req.Names s class_)
    (hroot : class_.spec.parentClassName = none) :
    Request.Ensures s (createClaim hash req) fun answer _ =>
      answer = .error (.allocation .poolExhausted) →
        ∃ k, req.Picks class_ s k ∧ RefusedAt hash req class_ s k := by
  have hstop : ∀ e : Err, Unexhausted e → (Except.error e : Except Err IPClaim) = .error (.allocation .poolExhausted) →
      ∃ k, req.Picks class_ s k ∧ RefusedAt hash req class_ s k := fun e he heq => absurd (Except.error.inj heq) he
  have htarget' : (ipClaimStrategy.prepareForCreate req.claim).target = .block := htarget
  simp only [createClaim]
  split
  · exact .throw (hstop _ (by simp [Unexhausted]))
  apply Request.Ensures.bind
  apply Request.Ensures.rollback_run
  · intro c s₀ hrun
    obtain ⟨rfl, rfl⟩ := Prod.mk.inj (Except.ok.inj (hrun.symm.trans hnames))
    apply Request.Ensures.bind
    apply Request.Ensures.ofExcept_cases
    · intro _ _
      dsimp only
      split
      · exact .throw (hstop _ (by simp [Unexhausted]))
      split
      · exact .throw (hstop _ (by simp [Unexhausted]))
      rw [htarget']
      exact createBlock_refused hroot
    · intro e he
      refine hstop e ?_
      simp only [classMatches] at he
      repeat' split at he
      all_goals cases he
      all_goals simp [Unexhausted]
  · intro e he
    cases he.symm.trans hnames

theorem createClaim_exhausted (hhash : ∀ t, hash t ≠ "") (hs : Served (serveCall hash) Call.Unmapped Db.empty s)
    (htarget : req.claim.target = .block) (hnames : req.Names s class_) (hroot : class_.spec.parentClassName = none)
    (hpicks : PicksRoom hash req class_ s)
    (hrefused : (createClaim hash req s).1 = .error (.allocation .poolExhausted)) :
    ∀ e ∈ candidatePools class_ req.claim.scope s, ¬ HasRoom hash req class_ s e := by
  obtain ⟨htabled, hmaintained⟩ := called_maintained hs
  obtain ⟨k, hbest, n, space, hn, hspace, hrun⟩ := createClaim_refused htarget hnames hroot hrefused
  intro e he hroom
  obtain ⟨pool, hmem, p, n', space', b, hp, hn', hspace', hb⟩ := hpicks k hbest ⟨e, he, hroom⟩
  obtain rfl := Except.ok.inj (hn.symm.trans hn')
  obtain rfl := Except.ok.inj (hspace.symm.trans hspace')
  have hpool : s.pool k = some pool := by
    obtain ⟨hobject, -⟩ := offeringPools_stored htabled (List.mem_filter.mp hmem).1
    rw [pool_eq_asPool, hobject]
    rfl
  obtain ⟨hm, hfloored⟩ := (hmaintained.upkept k).floored pool p hpool hp
  have hdigest : searchDigest (emptySpace hash) space.2 = space.2 := by
    apply if_neg
    obtain ⟨projected, -, rfl⟩ : ∃ projected, projectFor req.claim.scope class_.spec.uniqueWithin "uniqueWithin" =
        .ok projected ∧ (projected, addressSpaceDigest hash req.tenant projected) = space := by
      simp only [projectAddressSpaceDigest] at hspace
      cases hproject : projectFor req.claim.scope class_.spec.uniqueWithin "uniqueWithin" with
      | error e =>
        rw [hproject] at hspace
        cases hspace
      | ok projected =>
        rw [hproject] at hspace
        exact ⟨projected, rfl, Except.ok.inj hspace⟩
    exact hhash _
  have hempty : emptySpace hash ≠ "" := hhash _
  refine allocatePrefix_noRoom hempty hm hpool hp hfloored hrun ⟨b, ?_⟩
  change Room k pool p s.rows (searchDigest (emptySpace hash) space.2) n b
  rw [hdigest]
  exact hb

end

def markedChars (t : Scope.Text) : String :=
  "#" ++ byteChars t

theorem markedChars_ne (t : Scope.Text) : markedChars t ≠ "" := by
  simp [markedChars]

def hostPool (name : String) (n : Fin 256) : PoolRequest :=
  offeringRequest name (hostAddress n) 0

def hostClaim (name : String) : ClaimRequest :=
  { hostsRequest none with name := name }

def servedBy (as : List Action) : Db :=
  as.foldl (fun s a => serve markedChars a s) Db.empty

theorem servedBy_run (as : List Action) (h : ∀ a ∈ as, a.Unmapped) :
    Served (serveCall markedChars) Call.Unmapped Db.empty (servedBy as) := by
  induction as using List.reverseRecOn with
  | nil => exact .start
  | append_singleton as a ih =>
    have hrest := ih fun b hb => h b (List.mem_append_left _ hb)
    simp only [servedBy, List.foldl_append, List.foldl_cons, List.foldl_nil]
    exact .serve (Call.request a) hrest (h a (by simp))

/-- Pools of one address each at the keys `a` and `b`, and the claims made once both are there. -/
def twoHosts (class_ : IPClass) (m n : Fin 256) (claims : List String) : Db :=
  servedBy ([.createClass { hostsClassRequest with class_ := class_ }, .createPool (hostPool "a" m),
    .createPool (hostPool "b" n)] ++ claims.map fun name => .createClaim (hostClaim name))

theorem twoHosts_run (class_ : IPClass) (m n : Fin 256) (claims : List String) :
    Served (serveCall markedChars) Call.Unmapped Db.empty (twoHosts class_ m n claims) := by
  have hpool : ∀ name n, (Action.createPool (hostPool name n)).Unmapped := fun _ _ =>
    (@offeringRequest_stated _ _ _ Db.empty.ledger rfl).1
  apply servedBy_run
  intro a ha
  obtain hsetup | hclaim := List.mem_append.mp ha
  · simp only [List.mem_cons, List.not_mem_nil, or_false] at hsetup
    obtain rfl | rfl | rfl := hsetup
    · trivial
    · exact hpool _ _
    · exact hpool _ _
  · obtain ⟨name, -, rfl⟩ := List.mem_map.mp hclaim
    trivial

section

variable {name pool : String} {class_ : ResolvedClass} {s : Db} {n : Fin 256}

def freeHost (class_ : ResolvedClass) (pool : String) (n : Fin 256) (s : Db) : Bool :=
  (candidatePools class_ [] s).any fun e => e.1 = poolStorageKey "infra" pool &&
    (e.2.allocatedCIDR = some (hostAddress n) && (e.2.reservations = none &&
      s.rows.all fun r => r.poolKey ≠ e.1 || !r.cidr.overlaps (hostAddress n)))

theorem hasRoom_of_freeHost (hlength : effectivePrefixLength class_.spec none = .ok 32)
    (hspace : class_.spec.uniqueWithin = []) (h : freeHost class_ pool n s = true) :
    ∃ e ∈ candidatePools class_ [] s, e.1 = poolStorageKey "infra" pool ∧
      HasRoom markedChars (hostClaim name) class_ s e := by
  obtain ⟨e, he, hprops⟩ := List.any_eq_true.mp h
  simp only [Bool.and_eq_true, decide_eq_true_eq, List.all_eq_true, Bool.or_eq_true, Bool.not_eq_true'] at hprops
  obtain ⟨hkey, hrange, hreservations, hrows⟩ := hprops
  refine ⟨e, he, hkey, hostAddress n, 32, _, hostAddress n, hrange, hlength, by rw [hspace]; rfl, ⟨?_, rfl, ?_⟩, ?_⟩
  · exact (Cidr.within_iff _ _).mpr ⟨rfl, le_rfl, le_rfl⟩
  · exact fun r hr hpool _ => (hrows r hr).resolve_left fun hne => hne hpool
  · intro _ blocks hblocks block hblock
    rw [hreservations] at hblocks
    obtain rfl : [] = blocks := Except.ok.inj hblocks
    simp at hblock

theorem picksRoom_of_freeHost (hlength : effectivePrefixLength class_.spec none = .ok 32)
    (hspace : class_.spec.uniqueWithin = []) (h : freeHost class_ pool n s = true)
    (hpicks : (hostClaim name).Picks class_ s (poolStorageKey "infra" pool)) :
    PicksRoom markedChars (hostClaim name) class_ s := by
  intro k hk _
  obtain rfl := Option.some.inj (hpicks.symm.trans hk)
  obtain ⟨e, he, hkey, hroom⟩ := hasRoom_of_freeHost hlength hspace h
  rw [← hkey]
  exact ⟨e.2, he, hroom⟩

/-- Every candidate but the one picked has its whole range in one row of the claim's space. -/
def othersFull (req : ClaimRequest) (class_ : ResolvedClass) (s : Db) (k : Key) : Bool :=
  (candidatePools class_ req.claim.scope s).all fun e => e.1 = k || s.rows.any fun r =>
    r.poolKey = e.1 && (e.2.allocatedCIDR = some r.cidr && ((projectAddressSpaceDigest markedChars req.tenant
      req.claim.scope class_.spec.uniqueWithin "uniqueWithin").toOption.map Prod.snd = some r.scopeDigest : Bool))

theorem picksRoom_of_othersFull {req : ClaimRequest} {k : Key} (hpicks : req.Picks class_ s k)
    (h : othersFull req class_ s k = true) : PicksRoom markedChars req class_ s := by
  rintro k' hk' ⟨e, he, p, n, space, b, hp, hn, hspace, hroom⟩
  obtain rfl := Option.some.inj (hpicks.symm.trans hk')
  have hfull := List.all_eq_true.mp h e he
  rw [Bool.or_eq_true, decide_eq_true_eq, List.any_eq_true] at hfull
  obtain rfl | ⟨r, hr, hrow⟩ := hfull
  · exact ⟨e.2, he, p, n, space, b, hp, hn, hspace, hroom⟩
  · simp only [Bool.and_eq_true, decide_eq_true_eq, hspace] at hrow
    obtain ⟨hpool, hrange, hdigest⟩ := hrow
    obtain rfl : r.cidr = p := Option.some.inj (hrange.symm.trans hp)
    have hself : b.Mem b.family b.addr := ⟨rfl, le_rfl, b.addr_le_last⟩
    have hapart := hroom.free.apart r hr hpool (.inr (Option.some.inj hdigest).symm)
    rw [(r.cidr.overlaps_iff_mem b).mpr ⟨_, _, hself.of_within hroom.free.within, hself⟩] at hapart
    cases hapart

end

def spreadClass : IPClass :=
  { hostsClass with strategy := some .leastUtilized }

def resolvedSpread : ResolvedClass :=
  { resolvedHosts with spec := spreadClass }

/-- Of two pools the one with room is picked, and when both are full the next claim is refused. -/
theorem createClaim_exhausted_spread :
    PicksRoom markedChars (hostClaim "db") resolvedSpread (twoHosts spreadClass 0 1 ["web"]) ∧
    (∃ e ∈ candidatePools resolvedSpread [] (twoHosts spreadClass 0 1 ["web"]), e.1 = poolStorageKey "infra" "b" ∧
      HasRoom markedChars (hostClaim "db") resolvedSpread (twoHosts spreadClass 0 1 ["web"]) e) ∧
    (candidatePools resolvedSpread [] (twoHosts spreadClass 0 1 ["web", "db"])).length = 2 ∧
    (createClaim markedChars (hostClaim "mail") (twoHosts spreadClass 0 1 ["web", "db"])).1 =
      .error (.allocation .poolExhausted) ∧
    ∀ e ∈ candidatePools resolvedSpread [] (twoHosts spreadClass 0 1 ["web", "db"]),
      ¬ HasRoom markedChars (hostClaim "mail") resolvedSpread (twoHosts spreadClass 0 1 ["web", "db"]) e := by
  have hroom : freeHost resolvedSpread "b" 1 (twoHosts spreadClass 0 1 ["web"]) = true := by decide +kernel
  have hfirst : (hostClaim "db").Picks resolvedSpread (twoHosts spreadClass 0 1 ["web"]) (poolStorageKey "infra" "b") := by
    change bestPool _ _ = _
    decide +kernel
  have hsecond : (hostClaim "mail").Picks resolvedSpread (twoHosts spreadClass 0 1 ["web", "db"])
      (poolStorageKey "infra" "a") := by
    change bestPool _ _ = _
    decide +kernel
  have hfull : othersFull (hostClaim "mail") resolvedSpread (twoHosts spreadClass 0 1 ["web", "db"])
      (poolStorageKey "infra" "a") = true := by decide +kernel
  have hnames : (hostClaim "mail").Names (twoHosts spreadClass 0 1 ["web", "db"]) resolvedSpread := by
    change postgres.run _ (twoHosts spreadClass 0 1 ["web", "db"]) =
      .ok (resolvedSpread, twoHosts spreadClass 0 1 ["web", "db"])
    decide +kernel
  have hrefused : (createClaim markedChars (hostClaim "mail") (twoHosts spreadClass 0 1 ["web", "db"])).1 =
      .error (.allocation .poolExhausted) := by decide +kernel
  refine ⟨picksRoom_of_freeHost (by decide) rfl hroom hfirst, hasRoom_of_freeHost (by decide) rfl hroom,
    by decide +kernel, hrefused, ?_⟩
  exact createClaim_exhausted markedChars_ne (twoHosts_run _ _ _ _) rfl hnames rfl
    (picksRoom_of_othersFull hsecond hfull) hrefused

def movedHosts (target m n : Fin 256) : Db :=
  serveCall markedChars (.status (reportRequest "a" (hostAddress target))) (twoHosts hostsClass m n ["web"])

/-- The second pool is not tried when the first is full, and a range moved below the floor of its pool is not
searched. -/
theorem createClaim_exhausted_fails :
    (Served (serveCall markedChars) Call.Unmapped Db.empty (twoHosts hostsClass 0 1 ["web"]) ∧
      (hostClaim "db").Names (twoHosts hostsClass 0 1 ["web"]) resolvedHosts ∧
      resolvedHosts.spec.parentClassName = none ∧
      (createClaim markedChars (hostClaim "db") (twoHosts hostsClass 0 1 ["web"])).1 =
        .error (.allocation .poolExhausted) ∧
      ∃ e ∈ candidatePools resolvedHosts [] (twoHosts hostsClass 0 1 ["web"]), e.1 = poolStorageKey "infra" "b" ∧
        HasRoom markedChars (hostClaim "db") resolvedHosts (twoHosts hostsClass 0 1 ["web"]) e) ∧
    PicksRoom markedChars (hostClaim "db") resolvedHosts (movedHosts 0 1 2) ∧
      (createClaim markedChars (hostClaim "db") (movedHosts 0 1 2)).1 = .error (.allocation .poolExhausted) ∧
      ∃ e ∈ candidatePools resolvedHosts [] (movedHosts 0 1 2), e.1 = poolStorageKey "infra" "a" ∧
        HasRoom markedChars (hostClaim "db") resolvedHosts (movedHosts 0 1 2) e := by
  have hnames : (hostClaim "db").Names (twoHosts hostsClass 0 1 ["web"]) resolvedHosts := by
    change postgres.run _ (twoHosts hostsClass 0 1 ["web"]) = .ok (resolvedHosts, twoHosts hostsClass 0 1 ["web"])
    decide +kernel
  have hmoved : freeHost resolvedHosts "a" 0 (movedHosts 0 1 2) = true := by decide +kernel
  have hpicks : (hostClaim "db").Picks resolvedHosts (movedHosts 0 1 2) (poolStorageKey "infra" "a") := by
    change bestPool _ _ = _
    decide +kernel
  refine ⟨⟨twoHosts_run _ _ _ _, hnames, rfl, by decide +kernel, ?_⟩, ?_, by decide +kernel, ?_⟩
  · exact hasRoom_of_freeHost (by decide) rfl (show freeHost resolvedHosts "b" 1 _ = true by decide +kernel)
  · exact picksRoom_of_freeHost (by decide) rfl hmoved hpicks
  · exact hasRoom_of_freeHost (by decide) rfl hmoved

end Ipam.Registry
