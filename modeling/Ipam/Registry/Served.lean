import Ipam.Registry.Administration

namespace Ipam.Registry

open Allocation Allocator Cascade Database Transaction

def ClaimRequest.Names (req : ClaimRequest) (s : Db) (class_ : ResolvedClass) : Prop :=
  postgres.run (resolveClass req.tenant req.claim.className req.claim.ipFamily) s = .ok (class_, s)

def ClaimRequest.Picks (req : ClaimRequest) (class_ : ResolvedClass) (s : Db) (k : Key) : Prop :=
  bestPool class_.spec.strategy (candidatePools class_ req.claim.scope s) = some k

def Provides (hash : Scope.Text → String) (req : ClaimRequest) (L L' : Ledger) : Prop :=
  ∃ level source n mid carved pool block b, planLevel hash req.tenant req.claim.scope level.class_ = .ok level ∧
    Defined L level.class_ ∧ Draws hash L req.tenant req.claim.scope level.class_ source ∧
    Provisioned (emptySpace hash) level source n L mid carved L' pool block b

inductive Settles (hash : Scope.Text → String) (req : ClaimRequest) (s : Db) (L : Ledger) : Ledger → Prop where
  | nothing : Settles hash req s L L
  | block {class_ : ResolvedClass} {poolKey : Key} {n : ℤ} {space : Scope × String} {mid carved : Ledger} {pool : IPPool}
      {block : IPNet} {b : Cidr} (names : req.Names s class_) (target : req.claim.target = .block)
      (valid : ipClaimStrategy.validate req.name (ipClaimStrategy.prepareForCreate req.claim) = true)
      (defined : Defined L class_) (draws : Draws hash L req.tenant req.claim.scope class_ poolKey)
      (length : effectivePrefixLength class_.spec req.claim.prefixLength = .ok n)
      (space_eq : projectAddressSpaceDigest hash req.tenant req.claim.scope class_.spec.uniqueWithin "uniqueWithin" =
        .ok space)
      (taken : BlockTaken hash req class_ poolKey n space L mid carved pool block b)
      (absent : carved.objects (req.allocationKey hash) = none) (claimAbsent : carved.objects req.key = none) :
      Settles hash req s L ((carved.put (req.allocationKey hash) (.allocation (boundAllocation req class_ poolKey
        (effectiveReclaimPolicy class_.spec req.claim.reclaimPolicy) space b))).put req.key
          (.claim (boundClaim hash req (req.claimOf class_) poolKey b)))
  | range {L' : Ledger} (target : req.claim.target = .scopeRange) (h : Change hash L (.createClaim req) L') :
      Settles hash req s L L'

inductive Grants (hash : Scope.Text → String) (req : ClaimRequest) (class_ : ResolvedClass) (s : Db) (L : Ledger) :
    IPClaim → Prop where
  | block {poolKey : Key} {n : ℤ} {space : Scope × String} {mid carved : Ledger} {pool : IPPool} {block : IPNet}
      {b : Cidr} (target : req.claim.target = .block)
      (draws : Draws hash L req.tenant req.claim.scope class_ poolKey)
      (length : effectivePrefixLength class_.spec req.claim.prefixLength = .ok n)
      (space_eq : projectAddressSpaceDigest hash req.tenant req.claim.scope class_.spec.uniqueWithin "uniqueWithin" =
        .ok space)
      (taken : BlockTaken hash req class_ poolKey n space L mid carved pool block b)
      (picks : class_.spec.parentClassName = none → L = s.ledger ∧ req.Picks class_ s poolKey) :
      Grants hash req class_ s L (boundClaim hash req (req.claimOf class_) poolKey b)
  | range {level : CascadeLevel} {poolKey : Key} {carve : Row} (target : req.claim.target = .scopeRange)
      (plan : planLevel hash req.tenant req.claim.scope class_ = .ok level)
      (identity : level.identity poolKey ∈ L.identities) (mem : carve ∈ L.rows) (key : carve.allocationKey = poolKey)
      (purpose : carve.purpose = .poolCarve) :
      Grants hash req class_ s L (heldRange (req.claimOf class_) poolKey carve.cidr)

structure Granted (hash : Scope.Text → String) (req : ClaimRequest) (class_ : ResolvedClass) (s : Db) (L : Ledger)
    (claim : IPClaim) : Prop where
  names : req.Names s class_
  agrees : classMatches req.claim class_ = .ok ()
  defined : Defined L class_
  grants : Grants hash req class_ s L claim

def KeepsPools (L L' : Ledger) : Prop :=
  ∀ k pool, L.objects k = some (.pool pool) → L'.objects k = some (.pool pool)

theorem KeepsPools.put {L L' : Ledger} (h : KeepsPools L L') {k : Key} (hk : L'.objects k = none) (o : Object) :
    KeepsPools L (L'.put k o) := by
  intro k' pool hpool
  refine Ledger.put_objects.mpr (.inr ⟨?_, h k' pool hpool⟩)
  rintro rfl
  rw [h k' pool hpool] at hk
  cases hk

section

variable {hash : Scope.Text → String} {s : Db}

theorem Provides.change {req : ClaimRequest} {L L' : Ledger} (h : Provides hash req L L') :
    Change hash L (.createClaim req) L' := by
  obtain ⟨level, source, n, mid, carved, pool, block, b, hplan, hdefined, hdraws, hprov⟩ := h
  exact .provision hplan hdefined hdraws hprov

theorem Settles.changes {req : ClaimRequest} {L L' : Ledger} (h : Settles hash req s L L') :
    Changes hash (.createClaim req) L L' := by
  cases h with
  | nothing => exact .refl
  | block _ htarget hvalid hdefined hdraws hlength hspace htaken habsent hclaim =>
    exact .single (.bindBlock htarget hvalid hdefined hdraws hlength hspace htaken habsent hclaim)
  | range _ h => exact .single h

theorem descend_provides (req : ClaimRequest) (hs : s.Tabled) {first : CascadeLevel} {rest : List CascadeLevel}
    (hlevels : Levels hash s.ledger req.tenant req.claim.scope (first :: rest))
    (hroot : first.class_.spec.parentClassName = none) :
    Request.Ensures s (discoverInTx first.class_ req.claim.scope >>= ensureLevels (emptySpace hash) (first :: rest))
      fun answer s' => Relation.ReflTransGen (Provides hash req) s.ledger s'.ledger ∧
        KeepsClasses s.ledger s'.ledger ∧ ∀ k, answer = .ok k →
          ∃ level ∈ (first :: rest).getLast?, level.identity k ∈ s'.ledger.identities := by
  apply Request.Ensures.bind
  apply Request.Ensures.rollback _ fun e => ⟨.refl, fun _ _ hc => hc, fun k hk => nomatch hk⟩
  refine (discoverPool_after hs hroot req.claim.scope).mono ?_
  rintro source _ ⟨-, pool, hoffers⟩
  have hsource : ∀ level ∈ (first :: rest).head?, Draws hash s.ledger req.tenant req.claim.scope level.class_ source := by
    intro level hlevel
    obtain rfl : first = level := by simpa using hlevel
    exact .offered hroot hoffers
  refine (ensureLevels_ensures (R := Provides hash req) (fun hplan hdef hdraws hprov =>
    ⟨_, _, _, _, _, _, _, _, hplan, hdef, hdraws, hprov⟩) hlevels hsource).mono ?_
  rintro answer s' ⟨hchanges, hkeep, hanswer⟩
  exact ⟨hchanges, hkeep, fun k hk => (hanswer k hk).resolve_left fun hfalse => nomatch hfalse.1⟩

theorem resolvePool_provides (req : ClaimRequest) (hs : s.Tabled) {class_ : ResolvedClass}
    (hclass : Defined s.ledger class_) :
    Request.Ensures s (resolvePool hash req.tenant class_ req.claim.scope) fun answer s' =>
      Relation.ReflTransGen (Provides hash req) s.ledger s'.ledger ∧ ∀ k, answer = .ok k →
        Defined s'.ledger class_ ∧ Draws hash s'.ledger req.tenant req.claim.scope class_ k ∧
          (class_.spec.parentClassName = none → s' = s ∧ req.Picks class_ s k) := by
  apply Request.Ensures.bind
  apply Request.Ensures.rollback _ fun e => ⟨.refl, fun k hk => nomatch hk⟩
  refine (planCascade_after hash req.tenant class_ req.claim.scope).mono ?_
  rintro levels _ ⟨hlevels, hhead, hnil, hlast⟩
  dsimp only
  cases levels with
  | nil =>
    apply Request.Ensures.rollback _ fun e => ⟨.refl, fun k hk => nomatch hk⟩
    refine (discoverPool_after hs (hnil rfl) req.claim.scope).mono ?_
    rintro k _ ⟨hpicks, pool, hoffers⟩
    refine ⟨.refl, ?_⟩
    intro k' hk'
    obtain rfl := Except.ok.inj hk'
    exact ⟨hclass, .offered (hnil rfl) hoffers, fun _ => ⟨rfl, hpicks⟩⟩
  | cons first rest =>
    refine (descend_provides req hs hlevels (hhead first rfl)).mono ?_
    rintro answer s' ⟨hchanges, hkeep, hanswer⟩
    refine ⟨hchanges, fun k hk => ⟨hclass.mono hkeep, ?_⟩⟩
    obtain ⟨level, hlevel, hidentity⟩ := hanswer k hk
    have hmem := List.mem_of_getLast? hlevel
    have hparent := hlast level hlevel
    refine ⟨.provisioned (hparent.mono hkeep) (hlevels.planned level hmem)
      ((hlevels.defined level hmem).mono hkeep) hidentity, ?_⟩
    intro hroot
    obtain ⟨name, hname, -⟩ := hparent.names
    rw [hroot] at hname
    cases hname

theorem resolveScopeRange_provides (req : ClaimRequest) (hs : s.Tabled) {class_ : ResolvedClass}
    (hclass : Defined s.ledger class_) :
    Request.Ensures s (resolveScopeRange hash req.tenant class_ req.claim.scope) fun answer s' =>
      Relation.ReflTransGen (Provides hash req) s.ledger s'.ledger ∧ ∀ k, answer = .ok k →
        Defined s'.ledger class_ ∧ ∃ level : CascadeLevel,
          planLevel hash req.tenant req.claim.scope class_ = .ok level ∧ level.identity k ∈ s'.ledger.identities := by
  simp only [resolveScopeRange]
  split
  · exact .throw ⟨.refl, fun k hk => nomatch hk⟩
  apply Request.Ensures.bind
  apply Request.Ensures.rollback _ fun e => ⟨.refl, fun k hk => nomatch hk⟩
  refine (planScopeRangeCascade_after hash req.tenant hclass req.claim.scope).mono ?_
  rintro levels _ ⟨hlevels, hhead, hlast⟩
  dsimp only
  cases levels with
  | nil => exact .throw ⟨.refl, fun k hk => nomatch hk⟩
  | cons first rest =>
    refine (descend_provides req hs hlevels (hhead first rfl)).mono ?_
    rintro answer s' ⟨hchanges, hkeep, hanswer⟩
    refine ⟨hchanges, fun k hk => ⟨hclass.mono hkeep, ?_⟩⟩
    obtain ⟨level, hlevel, hidentity⟩ := hanswer k hk
    have hplan := hlevels.planned level (List.mem_of_getLast? hlevel)
    rw [hlast level hlevel] at hplan
    exact ⟨level, hplan, hidentity⟩

theorem bindBlock_after (req : ClaimRequest) (class_ : ResolvedClass) (poolKey : Key) (n : ℤ) (space : Scope × String) :
    postgres.After s (bindBlock hash req (req.claimOf class_) class_ poolKey n space) fun claim s' =>
      ∃ mid carved pool block b,
        BlockTaken hash req class_ poolKey n space s.ledger mid carved pool block b ∧
        carved.objects (req.allocationKey hash) = none ∧ carved.objects req.key = none ∧
        claim = boundClaim hash req (req.claimOf class_) poolKey b ∧
        s'.ledger = (carved.put (req.allocationKey hash) (.allocation (boundAllocation req class_ poolKey
          (effectiveReclaimPolicy class_.spec req.claim.reclaimPolicy) space b))).put req.key (.claim claim) := by
  apply Database.After.bind
  refine (allocatePrefix_after _).mono ?_
  rintro b s₁ ⟨mid, pool, block, htaken⟩
  apply Database.After.bind
  refine (insertObject_after (req.allocationKey hash) _).mono ?_
  rintro _ s₂ ⟨habsent, h₂⟩
  apply Database.After.bind
  refine (insertObject_after req.key _).mono ?_
  rintro _ s₃ ⟨hclaim, h₃⟩
  have hne : req.key ≠ req.allocationKey hash := by
    simp [ClaimRequest.key, ClaimRequest.allocationKey, claimObjectKey, allocationObjectKey]
  rw [h₂] at hclaim
  have hclaim' : s₁.ledger.objects req.key = none := (Function.update_of_ne hne _ _).symm.trans hclaim
  refine .pure ⟨mid, s₁.ledger, pool, block, b, htaken, habsent, hclaim', rfl, ?_⟩
  rw [h₃, h₂]
  rfl

theorem tryBlock_after (req : ClaimRequest) (class_ : ResolvedClass) (poolKey : Key) (n : ℤ) (space : Scope × String) :
    postgres.After s (tryBlock hash req (req.claimOf class_) class_ poolKey n space) fun claim _ =>
      ∃ mid carved pool block b,
        BlockTaken hash req class_ poolKey n space s.ledger mid carved pool block b ∧
        claim = boundClaim hash req (req.claimOf class_) poolKey b := by
  apply Database.After.bind
  refine (allocatePrefix_after _).mono ?_
  rintro b s₁ ⟨mid, pool, block, htaken⟩
  exact .pure ⟨mid, s₁.ledger, pool, block, b, htaken, rfl⟩

theorem holdRange_after (req : ClaimRequest) (class_ : ResolvedClass) (poolKey : Key) :
    postgres.After s (holdRange req (req.claimOf class_) poolKey) fun claim s' => ∃ carve ∈ s.ledger.rows,
      carve.allocationKey = poolKey ∧ carve.purpose = .poolCarve ∧ carve.claimKey = some poolKey ∧
      (∀ o ∈ s.ledger.rows, o.claimKey = some req.key → o.allocationKey = poolKey) ∧
      s.ledger.objects req.key = none ∧ claim = heldRange (req.claimOf class_) poolKey carve.cidr ∧
      s'.ledger = (s.ledger.setClaim poolKey (some req.key)).put req.key (.claim claim) := by
  apply Database.After.bind
  refine (bindScopeRange_after poolKey req.key).mono ?_
  rintro _ s₁ ⟨⟨carve, hmem, hkey, hpurpose, hself, rfl⟩, hfree, h₁⟩
  apply Database.After.bind
  refine (insertObject_after req.key _).mono ?_
  rintro _ s₂ ⟨habsent, h₂⟩
  rw [h₁] at habsent
  refine .pure ⟨carve, hmem, hkey, hpurpose, hself, hfree, habsent, rfl, ?_⟩
  rw [h₂, h₁]
  rfl

theorem tryRange_after (req : ClaimRequest) (class_ : ResolvedClass) (poolKey : Key) :
    postgres.After s (tryRange req (req.claimOf class_) poolKey) fun claim _ => ∃ carve ∈ s.ledger.rows,
      carve.allocationKey = poolKey ∧ carve.purpose = .poolCarve ∧
      claim = heldRange (req.claimOf class_) poolKey carve.cidr := by
  apply Database.After.bind
  refine (bindScopeRange_after poolKey req.key).mono ?_
  rintro _ s₁ ⟨⟨carve, hmem, hkey, hpurpose, -, rfl⟩, -, -⟩
  exact .pure ⟨carve, hmem, hkey, hpurpose, rfl⟩

abbrev Settled (hash : Scope.Text → String) (req : ClaimRequest) (s : Db) (answer : Except Err IPClaim) (L' : Ledger) :
    Prop :=
  ∃ L, Relation.ReflTransGen (Provides hash req) s.ledger L ∧ Settles hash req s L L' ∧
    ∀ claim, answer = .ok claim → ∃ class_, Granted hash req class_ s L claim

theorem Settled.refused {req : ClaimRequest} {L : Ledger} (h : Relation.ReflTransGen (Provides hash req) s.ledger L)
    (e : Err) : Settled hash req s (.error e) L :=
  ⟨L, h, .nothing, fun _ hclaim => nomatch hclaim⟩

theorem Settled.bound {req : ClaimRequest} {L L' : Ledger} {class_ : ResolvedClass} {claim : IPClaim}
    (h : Relation.ReflTransGen (Provides hash req) s.ledger L) (hsettles : Settles hash req s L L')
    (hgranted : Granted hash req class_ s L claim) : Settled hash req s (.ok claim) L' :=
  ⟨L, h, hsettles, fun _ hclaim => ⟨class_, Except.ok.inj hclaim ▸ hgranted⟩⟩

section

variable {req : ClaimRequest} {class_ : ResolvedClass} (hs : s.Tabled) (hnames : req.Names s class_)
  (hagrees : classMatches req.claim class_ = .ok ()) (hclass : Defined s.ledger class_)

include hs hnames hagrees hclass

theorem createBlock_settled (htarget : req.claim.target = .block)
    (hvalid : ipClaimStrategy.validate req.name (ipClaimStrategy.prepareForCreate req.claim) = true) :
    Request.Ensures s (createBlock hash req (req.claimOf class_) class_) fun answer s' =>
      Settled hash req s answer s'.ledger := by
  apply Request.Ensures.bind
  apply Request.Ensures.ofExcept _ fun e => .refused .refl e
  intro n hn
  apply Request.Ensures.bind
  apply Request.Ensures.ofExcept _ fun e => .refused .refl e
  intro space hspace
  apply Request.Ensures.bind
  refine (resolvePool_provides req hs hclass).mono ?_
  rintro answer s₁ ⟨hchanges, hanswer⟩
  cases answer with
  | error e => exact .refused hchanges e
  | ok k =>
    obtain ⟨hclass₁, hdraws, hsame⟩ := hanswer k rfl
    have hpicks : class_.spec.parentClassName = none → s₁.ledger = s.ledger ∧ req.Picks class_ s k :=
      fun hroot => ⟨congrArg Db.ledger (hsame hroot).1, (hsame hroot).2⟩
    dsimp only
    split
    · apply Request.Ensures.rollback _ fun e => .refused hchanges e
      refine (tryBlock_after req class_ k n space).mono ?_
      rintro claim _ ⟨mid, carved, pool, block, b, htaken, rfl⟩
      exact .bound hchanges .nothing ⟨hnames, hagrees, hclass₁, .block htarget hdraws hn hspace htaken hpicks⟩
    · apply Request.Ensures.transact _ fun e => .refused hchanges e
      refine (bindBlock_after req class_ k n space).mono ?_
      rintro claim s' ⟨mid, carved, pool, block, b, htaken, habsent, hclaim, rfl, hs'⟩
      rw [hs']
      exact .bound hchanges (.block hnames htarget hvalid hclass₁ hdraws hn hspace htaken habsent hclaim)
        ⟨hnames, hagrees, hclass₁, .block htarget hdraws hn hspace htaken hpicks⟩

theorem createScopeRange_settled (htarget : req.claim.target = .scopeRange) :
    Request.Ensures s (createScopeRange hash req (req.claimOf class_) class_) fun answer s' =>
      Settled hash req s answer s'.ledger := by
  apply Request.Ensures.bind
  refine (resolveScopeRange_provides req hs hclass).mono ?_
  rintro answer s₁ ⟨hchanges, hanswer⟩
  cases answer with
  | error e => exact .refused hchanges e
  | ok k =>
    obtain ⟨hclass₁, level, hplan, hidentity⟩ := hanswer k rfl
    dsimp only
    split
    · apply Request.Ensures.rollback _ fun e => .refused hchanges e
      refine (tryRange_after req class_ k).mono ?_
      rintro claim _ ⟨carve, hmem, hkey, hpurpose, rfl⟩
      exact .bound hchanges .nothing ⟨hnames, hagrees, hclass₁, .range htarget hplan hidentity hmem hkey hpurpose⟩
    · apply Request.Ensures.transact _ fun e => .refused hchanges e
      refine (holdRange_after req class_ k).mono ?_
      rintro claim s' ⟨carve, hmem, hkey, hpurpose, hself, hfree, habsent, rfl, hs'⟩
      rw [hs']
      exact .bound hchanges
        (.range htarget (.holdRange htarget hclass₁ hplan hidentity hmem hkey hpurpose hself hfree habsent))
        ⟨hnames, hagrees, hclass₁, .range htarget hplan hidentity hmem hkey hpurpose⟩

end

theorem createClaim_settled (hs : s.Tabled) (req : ClaimRequest) :
    Request.Ensures s (createClaim hash req) fun answer s' => Settled hash req s answer s'.ledger := by
  simp only [createClaim]
  split
  · exact .throw (.refused .refl _)
  rename_i hvalid
  apply Request.Ensures.bind
  apply Request.Ensures.rollback _ fun e => .refused .refl e
  intro class_ s₀ hrun
  obtain ⟨rfl, hclass⟩ := resolveClass_after _ _ _ _ _ hrun
  have hnames : req.Names s₀ class_ := hrun
  apply Request.Ensures.bind
  apply Request.Ensures.ofExcept _ fun e => .refused .refl e
  intro _ hagrees
  dsimp only
  split
  · exact .throw (.refused .refl _)
  split
  · exact .throw (.refused .refl _)
  cases htarget : req.claim.target with
  | block =>
    have htarget' : (ipClaimStrategy.prepareForCreate req.claim).target = .block := htarget
    rw [htarget']
    exact createBlock_settled hs hnames hagrees hclass htarget (by simpa using hvalid)
  | scopeRange =>
    have htarget' : (ipClaimStrategy.prepareForCreate req.claim).target = .scopeRange := htarget
    rw [htarget']
    exact createScopeRange_settled hs hnames hagrees hclass htarget

theorem Change.keepsPools {req : ClaimRequest} {L L' : Ledger} (h : Change hash L (.createClaim req) L') :
    KeepsPools L L' := by
  cases h with
  | provision _ _ _ hprov =>
    obtain ⟨hobjects, -, habsent⟩ := hprov.objects
    intro k pool hpool
    rw [hobjects, Function.update_of_ne]
    · exact hpool
    · rintro rfl
      rw [habsent] at hpool
      cases hpool
  | @bindBlock req class_ poolKey n space mid carved pool block b _ _ _ _ _ _ htaken habsent hclaim =>
    have hcarved : KeepsPools L carved := by
      intro k' pool' hpool'
      rw [(taken_objects htaken).1]
      exact hpool'
    have hne : req.key ≠ req.allocationKey hash := by
      simp [ClaimRequest.key, ClaimRequest.allocationKey, claimObjectKey, allocationObjectKey]
    exact (hcarved.put habsent _).put ((Function.update_of_ne hne _ _).trans hclaim) _
  | @holdRange req class_ level poolKey carve _ _ _ _ _ _ _ _ _ habsent =>
    have hset : KeepsPools L (L.setClaim poolKey (some req.key)) := fun _ _ h => h
    exact hset.put habsent _

theorem Settles.keepsPools {req : ClaimRequest} {L L' : Ledger} (h : Settles hash req s L L') : KeepsPools L L' := by
  have hchanges := h.changes
  clear h
  induction hchanges with
  | refl => exact fun _ _ hpool => hpool
  | tail _ hlast ih => exact fun k pool hpool => hlast.keepsPools k pool (ih k pool hpool)

theorem provides_changes {req : ClaimRequest} {L L' : Ledger} (h : Relation.ReflTransGen (Provides hash req) L L') :
    Changes hash (.createClaim req) L L' :=
  Relation.ReflTransGen.mono (fun _ _ => Provides.change) _ _ h

theorem createClaim_changes (hs : s.Tabled) (req : ClaimRequest) :
    Request.Ensures s (createClaim hash req) fun _ s' => Changes hash (.createClaim req) s.ledger s'.ledger := by
  refine (createClaim_settled hs req).mono ?_
  rintro _ s' ⟨L, hprovides, hsettles, -⟩
  exact (provides_changes hprovides).trans hsettles.changes

theorem claim_of_decode {key : Key} {o : Object} {c : IPClaim} (ho : s.object key = some o)
    (h : ipClaimStrategy.decode o = some c) : s.ledger.objects key = some (.claim c) := by
  cases o with
  | claim c' =>
    obtain rfl := Option.some.inj h
    simp only [Db.ledger, ho]
    rfl
  | pool | class_ | allocation => cases h

theorem allocation_of_decode {key : Key} {o : Object} {a : IPAllocation} (ho : s.object key = some o)
    (h : asAllocation o = some a) : s.ledger.objects key = some (.allocation a) := by
  cases o with
  | allocation a' =>
    obtain rfl := Option.some.inj h
    simp only [Db.ledger, ho]
    rfl
  | pool | class_ | claim => cases h

theorem updateClaim_changes (req : ClaimRequest) (forceAllowCreate : Bool) :
    Request.Ensures s (updateClaim req forceAllowCreate) fun _ s' =>
      Changes hash (.updateClaim req forceAllowCreate) s.ledger s'.ledger := by
  apply persist_changes
  refine (update_ledger fun _ => .pure rfl).mono ?_
  rintro _ s' (hsame | ⟨rfl, hvalid, habsent, hput⟩ | ⟨o, old, ho, hdecode, hvalid, hput⟩)
  · exact .inl hsame
  · rw [hput]
    exact .inr (.forceClaim habsent)
  · rw [hput]
    exact .inr (.updateClaim (claim_of_decode ho hdecode) hvalid)

theorem updateAllocation_changes (req : AllocationRequest) (forceAllowCreate : Bool) :
    Request.Ensures s (updateAllocation req forceAllowCreate) fun _ s' =>
      Changes hash (.updateAllocation req forceAllowCreate) s.ledger s'.ledger := by
  apply persist_changes
  refine (update_ledger fun _ => .pure rfl).mono ?_
  rintro _ s' (hsame | ⟨rfl, hvalid, habsent, hput⟩ | ⟨o, old, ho, hdecode, hvalid, hput⟩)
  · exact .inl hsame
  · rw [hput]
    exact .inr (.forceAllocation habsent)
  · rw [hput]
    exact .inr (.updateAllocation (allocation_of_decode ho hdecode) hvalid)

theorem deleteScopeRange_changes (hs : Consistent s.ledger) {req : DeleteRequest} {claim : IPClaim}
    (hstored : s.ledger.objects req.claimKey = some (.claim claim)) (htarget : claim.target = .scopeRange) :
    postgres.After s (deleteScopeRange req.claimKey) fun _ s' =>
      Change hash s.ledger (.deleteClaim req) s'.ledger := by
  apply Database.After.step
  intro held es hexec
  obtain ⟨rfl, rfl⟩ := Prod.mk.inj (Except.ok.inj hexec)
  cases hfind : s.rows.find? fun r : Row => r.claimKey = some req.claimKey && r.purpose = .poolCarve with
  | none =>
    rw [List.find?_eq_none] at hfind
    change postgres.After s (send (.deleteObject req.claimKey)) _
    refine (deleteObject_after req.claimKey).mono ?_
    rintro _ s' ⟨hempty, hremove⟩
    rw [hremove]
    refine .removeRangeClaim hstored htarget ?_ hempty
    intro r hr hheld hpurpose
    exact hfind r hr (by simp [hheld, hpurpose])
  | some carve =>
    have hmatch := List.find?_some hfind
    simp only [Bool.and_eq_true, decide_eq_true_eq] at hmatch
    change postgres.After s ((releaseScopeRange carve.allocationKey).bind fun _ => send (.deleteObject req.claimKey)) _
    apply Database.After.bind
    refine (releaseRangeTree_after _ carve.allocationKey hs.keyed).mono ?_
    rintro _ s₁ ⟨tree, hcleared⟩
    refine (deleteObject_after req.claimKey).mono ?_
    rintro _ s' ⟨-, hremove⟩
    rw [hremove, hcleared.ledger]
    exact .releaseRange hstored htarget (List.mem_of_find?_eq_some hfind) hmatch.1 hmatch.2 hcleared.mem_tree
      hcleared.closed

theorem disposeAllocation_after (k : Key) (retained : List Key) :
    postgres.After s (disposeAllocation k retained) fun _ s' => Disposed s.ledger retained (some k) s'.ledger := by
  refine .ite ?_ ?_
  · intro hkept
    apply getObject_after
    cases ho : s.object k with
    | none => exact .pure (.missing hkept (ledger_object_none.mpr ho))
    | some o =>
      apply Database.After.bind
      apply Database.After.ofOption
      intro alloc halloc
      refine (updateObject_after k _).mono ?_
      rintro _ s' ⟨-, hput⟩
      rw [hput]
      exact .kept hkept (allocation_of_decode ho halloc)
  · intro hgone
    refine (deleteObject_after k).mono ?_
    rintro _ s' ⟨hempty, hremove⟩
    rw [hremove]
    exact .removed hgone hempty

theorem releaseAndDelete_after (hs : Consistent s.ledger) {req : DeleteRequest} {claim : IPClaim}
    (hstored : s.ledger.objects req.claimKey = some (.claim { claim with phase := .releasing }))
    (htarget : claim.target = .block) :
    postgres.After s (releaseAndDelete req.tenant req.namespace_ claim req.claimKey) fun _ s' =>
      Change hash s.ledger (.deleteClaim req) s'.ledger := by
  apply Database.After.bind
  refine (release_after hs.keyed req.claimKey).mono ?_
  rintro retained s₁ ⟨hretained, h₁⟩
  obtain rfl : retained = retainedKeys s.ledger req.claimKey := hretained
  have hreleased : s₁.ledger = released s.ledger req.claimKey := h₁
  have hend : ∀ s₂ : Db, Disposed s₁.ledger (retainedKeys s.ledger req.claimKey)
      (boundKey req.tenant req.namespace_ claim) s₂.ledger →
      postgres.After s₂ (send (.deleteObject req.claimKey)) fun _ s' =>
        Change hash s.ledger (.deleteClaim req) s'.ledger := by
    intro s₂ h₂
    refine (deleteObject_after req.claimKey).mono ?_
    rintro _ s₃ ⟨hempty, hremove⟩
    rw [hremove]
    rw [hreleased] at h₂
    exact .releaseClaim hstored htarget h₂ hempty
  cases hbound : claim.boundAllocationRef with
  | none =>
    apply hend
    simp only [boundKey, hbound]
    exact .unbound
  | some name =>
    refine .ite ?_ ?_
    · intro hname
      have hkey : boundKey req.tenant req.namespace_ claim =
          some (allocationObjectKey req.tenant req.namespace_ name) := by simp [boundKey, hbound, hname]
      apply Database.After.bind
      refine (disposeAllocation_after _ _).mono ?_
      intro _ s₂ h₂
      exact hend s₂ (hkey ▸ h₂)
    · intro hname
      apply hend
      simp only [boundKey, hbound, not_not.mp hname]
      exact .unbound

theorem attempts_changes {a : Action} {α : Type} {p : Tx α} (n : ℕ)
    (hp : postgres.After s p fun _ s' => Change hash s.ledger a s'.ledger) :
    Request.Ensures s (Request.attempts n (Request.transact p) : Handler α) fun _ s' =>
      Changes hash a s.ledger s'.ledger := by
  have hrun := postgres.run_eq_record p [] s
  induction n with
  | zero => exact transact_changes (hp.mono fun _ _ h => .inr h)
  | succ n ih =>
    cases hrecord : postgres.record p [] s with
    | ok r =>
      rw [hrecord] at hrun
      simp only [Request.Ensures, Request.after, Request.attempts, Request.transact_ok hrecord]
      exact .single (hp r.1 _ hrun)
    | error e =>
      -- a failed attempt leaves the state as it was
      simp only [Request.Ensures, Request.after, Request.attempts, Request.transact_error hrecord] at ih ⊢
      exact ih

theorem deleteClaim_changes (hs : Consistent s.ledger) (req : DeleteRequest) :
    Request.Ensures s (deleteClaim req) fun _ s' => Changes hash (.deleteClaim req) s.ledger s'.ledger := by
  apply Request.Ensures.bind
  apply Request.Ensures.rollback _ fun _ => .refl
  apply Strategy.get_after
  intro o claim ho hdecode
  have hstored : s.ledger.objects req.claimKey = some (.claim claim) := claim_of_decode ho hdecode
  dsimp only
  split
  · exact .throw .refl
  split
  · exact .pure .refl
  split
  · rename_i htarget
    apply transact_changes
    exact (deleteScopeRange_changes hs hstored htarget).mono fun _ _ h => .inr h
  · rename_i htarget
    apply Request.Ensures.bind
    apply Request.Ensures.transact _ fun _ => .refl
    refine (updateObject_after req.claimKey _).mono ?_
    rintro _ s₁ ⟨-, hput⟩
    have hfirst : Change hash s.ledger (.deleteClaim req) s₁.ledger := by
      rw [hput]
      exact .releasing hstored htarget
    have hstored₁ : s₁.ledger.objects req.claimKey = some (.claim { claim with phase := .releasing }) := by
      rw [hput]
      exact Function.update_self _ _ _
    have hlast : postgres.After s₁ (releaseAndDelete req.tenant req.namespace_ claim req.claimKey) fun _ s' =>
        Change hash s₁.ledger (.deleteClaim req) s'.ledger :=
      releaseAndDelete_after (hfirst.consistent hs) hstored₁ htarget
    exact (attempts_changes _ hlast).mono fun _ _ hrest => .head hfirst hrest

theorem deleteAllocation_changes (hs : Consistent s.ledger) (req : DeleteRequest) :
    Request.Ensures s (deleteAllocation req) fun _ s' => Changes hash (.deleteAllocation req) s.ledger s'.ledger := by
  apply Request.Ensures.bind
  apply Request.Ensures.rollback _ fun _ => .refl
  apply Strategy.get_after
  intro o a ho hdecode
  dsimp only
  split
  · exact .throw .refl
  split
  · exact .throw .refl
  rename_i hunbound
  split
  · exact .pure .refl
  apply transact_changes
  apply Database.After.bind
  refine (deleteAllocations_after hs.keyed (.allocationKey req.allocationKey)).mono ?_
  intro _ s₁ h₁
  refine (deleteObject_after req.allocationKey).mono ?_
  rintro _ s₂ ⟨hempty, hremove⟩
  rw [hremove, h₁]
  refine .inr (.freeAllocation (allocation_of_decode ho hdecode) (by simpa using hunbound) ?_)
  intro r hr hne
  apply hempty r
  have hmem : r ∈ s₁.ledger.rows := by
    rw [h₁]
    exact List.mem_filter.mpr ⟨hr, by simpa [DeleteCond.matches] using hne⟩
  exact hmem

theorem serve_changes (hs : s.Tabled) (hc : Consistent s.ledger) (a : Action) :
    Changes hash a s.ledger (serve hash a s).ledger := by
  cases a with
  | createClass req => exact createClass_changes req
  | updateClass req force => exact updateClass_changes req force
  | deleteClass project name admitted dryRun => exact deleteClass_changes project name admitted dryRun
  | createPool req => exact createPool_changes req
  | updatePool req force => exact updatePool_changes req force
  | deletePool project name admitted dryRun => exact deletePool_changes hc project name admitted dryRun
  | deletePools project admitted dryRun names => exact deletePoolCollection_changes project admitted dryRun names
  | createClaim req => exact createClaim_changes hs req
  | updateClaim req force => exact updateClaim_changes req force
  | deleteClaim req => exact deleteClaim_changes hc req
  | updateAllocation req force => exact updateAllocation_changes req force
  | deleteAllocation req => exact deleteAllocation_changes hc req

theorem serve_tabled (hs : s.Tabled) (a : Action) : (serve hash a s).Tabled := by
  cases a <;> exact tabled_view hs _

theorem changes_consistent {a : Action} {L L' : Ledger} (hc : Consistent L) (h : Changes hash a L L') :
    Consistent L' := by
  induction h with
  | refl => exact hc
  | tail _ hlast ih => exact hlast.consistent ih

theorem changes_inv {I : Ledger → Prop} {cond : Action → Ledger → Prop}
    (hstep : ∀ {a L L'}, Consistent L → I L → cond a L → Change hash L a L' → I L' ∧ cond a L') {a : Action}
    {L L' : Ledger} (hc : Consistent L) (hI : I L) (ha : cond a L) (h : Changes hash a L L') :
    Consistent L' ∧ I L' ∧ cond a L' := by
  induction h with
  | refl => exact ⟨hc, hI, ha⟩
  | tail _ hlast ih =>
    obtain ⟨hc, hi, hcond⟩ := ih
    exact ⟨hlast.consistent hc, hstep hc hi hcond hlast⟩

theorem consistent_empty : Consistent Db.empty.ledger :=
  ⟨⟨.nil, .nil⟩, by simp [Db.ledger, Db.empty], by simp [Db.ledger, Db.empty]⟩

theorem served_inv {I : Ledger → Prop} {cond : Action → Ledger → Prop} (hinit : I Db.empty.ledger)
    (hstep : ∀ {a L L'}, Consistent L → I L → cond a L → Change hash L a L' → I L' ∧ cond a L')
    (hserved : Served (serve hash) (fun a s => cond a s.ledger) Db.empty s) :
    s.Tabled ∧ Consistent s.ledger ∧ I s.ledger := by
  refine Served.inv (I := fun s => s.Tabled ∧ Consistent s.ledger ∧ I s.ledger) ⟨?_, ?_, hinit⟩ ?_ hserved
  · exact List.nodup_nil
  · exact consistent_empty
  · rintro a s ⟨htabled, hconsistent, hI⟩ ha
    obtain ⟨hc, hi, -⟩ := changes_inv hstep hconsistent hI ha (serve_changes htabled hconsistent a)
    exact ⟨serve_tabled htabled a, hc, hi⟩

theorem served_settled {I : Ledger → Prop} {cond : Action → Db → Ledger → Prop} (hinit : I Db.empty.ledger)
    (hstep : ∀ {a s L L'}, (∀ req, a ≠ .createClaim req) → Consistent L → I L → cond a s L → Change hash L a L' →
      I L' ∧ cond a s L')
    (hprovides : ∀ {req s L L'}, Consistent L → I L → cond (.createClaim req) s L → Provides hash req L L' →
      I L' ∧ cond (.createClaim req) s L')
    (hsettles : ∀ {req s L L'}, Consistent L → I L → cond (.createClaim req) s L → Settles hash req s L L' → I L')
    (hserved : Served (serve hash) (fun a s => cond a s s.ledger) Db.empty s) :
    s.Tabled ∧ Consistent s.ledger ∧ I s.ledger := by
  refine Served.inv (I := fun s => s.Tabled ∧ Consistent s.ledger ∧ I s.ledger) ⟨?_, ?_, hinit⟩ ?_ hserved
  · exact List.nodup_nil
  · exact consistent_empty
  · rintro a s ⟨htabled, hconsistent, hI⟩ ha
    have hchanges : Changes hash a s.ledger (serve hash a s).ledger := serve_changes htabled hconsistent a
    refine ⟨serve_tabled htabled a, changes_consistent hconsistent hchanges, ?_⟩
    by_cases hclaim : ∃ req, a = .createClaim req
    · obtain ⟨req, rfl⟩ := hclaim
      have hsettled : Settled hash req s _ (serve hash (.createClaim req) s).ledger := createClaim_settled htabled req
      obtain ⟨L, hprovided, hsettled, -⟩ := hsettled
      have hL : Consistent L ∧ I L ∧ cond (.createClaim req) s L := by
        clear hsettled
        induction hprovided with
        | refl => exact ⟨hconsistent, hI, ha⟩
        | tail _ hlast ih =>
          obtain ⟨hc, hi, hcond⟩ := ih
          exact ⟨hlast.change.consistent hc, hprovides hc hi hcond hlast⟩
      exact hsettles hL.1 hL.2.1 hL.2.2 hsettled
    · have hother : ∀ req, a ≠ .createClaim req := fun req heq => hclaim ⟨req, heq⟩
      have hrun : ∀ {L'}, Changes hash a s.ledger L' → Consistent L' ∧ I L' ∧ cond a s L' := by
        intro L' h
        induction h with
        | refl => exact ⟨hconsistent, hI, ha⟩
        | tail _ hlast ih =>
          obtain ⟨hc, hi, hcond⟩ := ih
          exact ⟨hlast.consistent hc, hstep hother hc hi hcond hlast⟩
      exact (hrun hchanges).2.1

end

end Ipam.Registry
