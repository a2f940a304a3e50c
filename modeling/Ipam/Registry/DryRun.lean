import Ipam.Allocator.PoolTransactions
import Ipam.Cascade.PoolName
import Ipam.Registry.Claims

namespace Ipam.Registry

open Allocation Allocator Cascade Database Transaction

def Effect.logged : Effect → Bool
  | .putObject _ _ => true
  | .removeObject _ => true
  | _ => false

def Untouched {α : Type} (m : Handler α) (s : Db) : Prop :=
  m.after s = s ∧ ∀ e ∈ (m s).2, Effect.logged e = false

section

variable (hash : Scope.Text → String)

def blockLevels (consumer : String) (leaf : ResolvedClass) (claimScope : Scope) : Handler (List CascadeLevel × Key) := do
  let levels ← Request.rollback (planCascade hash consumer leaf claimScope)
  let source ← discoverInTx ((levels.head?.map CascadeLevel.class_).getD leaf) claimScope
  pure (levels, source)

def rangeLevels (consumer : String) (leaf : ResolvedClass) (claimScope : Scope) : Handler (List CascadeLevel × Key) :=
  if leaf.spec.poolPer = [] then Request.throw .classHoldsNoRange
  else do
    let levels ← Request.rollback (planScopeRangeCascade hash consumer leaf claimScope)
    match levels with
    | [] => Request.throw .chainTooDeep
    | first :: rest => do
      let source ← discoverInTx first.class_ claimScope
      pure (first :: rest, source)

def claimLevels (req : ClaimRequest) : Handler (List CascadeLevel × Key) :=
  let claim := ipClaimStrategy.prepareForCreate req.claim
  if ¬ ipClaimStrategy.validate req.name claim then Request.throw .invalid
  else do
    let class_ ← Request.rollback (resolveClass req.tenant claim.className claim.ipFamily)
    Request.ofExcept id (classMatches claim class_)
    if ¬ req.admitted then Request.throw .forbidden
    else if ¬ req.namespaceLive then Request.throw .forbidden
    else
      match claim.target with
      | .scopeRange => rangeLevels hash req.tenant class_ claim.scope
      | .block => do
        let _ ← Request.ofExcept id (effectivePrefixLength class_.spec claim.prefixLength)
        let _ ← Request.ofExcept id
          (projectAddressSpaceDigest hash req.tenant claim.scope class_.spec.uniqueWithin "uniqueWithin")
        blockLevels hash req.tenant class_ claim.scope

def levelsReady (emptyDigest : String) : List CascadeLevel → Key → Db → Bool
  | [], _, _ => true
  | level :: rest, source, s =>
    match s.identities.find? fun i => i.className = level.class_.name && i.scopeDigest = level.scopeDigest with
    | some i => levelsReady emptyDigest rest i.poolKey s
    | none =>
      match postgres.run (ensureLevel emptyDigest level source) s with
      | .ok _ => false
      | .error _ => true

def claimReady (req : ClaimRequest) (s : Db) : Bool :=
  match (claimLevels hash req s).1 with
  | .error _ => true
  | .ok (levels, source) => levelsReady (emptyAddressSpaceDigest hash) levels source s

def provisioned (m : Handler (List CascadeLevel × Key)) (s : Db) : List Effect :=
  match (m s).1 with
  | .error _ => []
  | .ok (levels, source) => (ensureLevels (emptyAddressSpaceDigest hash) levels source s).2

variable {hash}

theorem rollback_silent {α : Type} (p : Tx α) (s : Db) : ((Request.rollback p : Handler α) s).2 = [] := rfl

theorem bind_silent {α β : Type} (m : Handler α) {f : α → Handler β} (hf : ∀ a s, (f a s).2 = []) (s : Db) :
    ((m >>= f) s).2 = (m s).2 := by
  rw [Request.bind_apply]
  cases h : m s with
  | mk r log =>
    cases r with
    | error e => rfl
    | ok a =>
      simp only [hf, List.append_nil]

theorem resolvePool_effects (consumer : String) (leaf : ResolvedClass) (claimScope : Scope) (s : Db) :
    (resolvePool hash consumer leaf claimScope s).2 = provisioned hash (blockLevels hash consumer leaf claimScope) s := by
  simp only [resolvePool, provisioned, blockLevels, discoverInTx, Request.rollback_bind]
  cases postgres.record (planCascade hash consumer leaf claimScope) [] s with
  | error e => rfl
  | ok r =>
    obtain ⟨levels, log⟩ := r
    cases levels with
    | nil =>
      simp only [List.head?_nil, Option.map_none, Option.getD_none, rollback_silent]
      cases postgres.record (discoverPool leaf claimScope) [] s with
      | error e => rfl
      | ok r => rfl
    | cons first rest =>
      simp only [List.head?_cons, Option.map_some, Option.getD_some, Request.rollback_bind]
      cases postgres.record (discoverPool first.class_ claimScope) [] s with
      | error e => rfl
      | ok r => rfl

theorem resolveScopeRange_effects (consumer : String) (leaf : ResolvedClass) (claimScope : Scope) (s : Db) :
    (resolveScopeRange hash consumer leaf claimScope s).2 =
      provisioned hash (rangeLevels hash consumer leaf claimScope) s := by
  simp only [resolveScopeRange, provisioned, rangeLevels]
  split
  · rfl
  simp only [discoverInTx, Request.rollback_bind]
  cases postgres.record (planScopeRangeCascade hash consumer leaf claimScope) [] s with
  | error e => rfl
  | ok r =>
    obtain ⟨levels, log⟩ := r
    cases levels with
    | nil => rfl
    | cons first rest =>
      simp only [Request.rollback_bind]
      cases postgres.record (discoverPool first.class_ claimScope) [] s with
      | error e => rfl
      | ok r => rfl

theorem createBlock_effects {req : ClaimRequest} (hdry : isDryRun req.dryRun = true) (claim : IPClaim)
    (class_ : ResolvedClass) (s : Db) :
    (createBlock hash req (defaulted claim class_) class_ s).2 = provisioned hash (do
      let _ ← Request.ofExcept id (effectivePrefixLength class_.spec claim.prefixLength)
      let _ ← Request.ofExcept id
        (projectAddressSpaceDigest hash req.tenant claim.scope class_.spec.uniqueWithin "uniqueWithin")
      blockLevels hash req.tenant class_ claim.scope) s := by
  have hlength : (defaulted claim class_).prefixLength = claim.prefixLength := rfl
  have hscope : (defaulted claim class_).scope = claim.scope := rfl
  simp only [createBlock, provisioned, hdry, if_true, Request.ofExcept_bind, hlength, hscope]
  cases effectivePrefixLength class_.spec claim.prefixLength with
  | error e => rfl
  | ok prefixLen =>
    simp only
    cases projectAddressSpaceDigest hash req.tenant claim.scope class_.spec.uniqueWithin "uniqueWithin" with
    | error e => rfl
    | ok space =>
      simp only
      rw [bind_silent _ fun _ _ => rollback_silent _ _]
      exact resolvePool_effects _ _ _ _

theorem createClaim_effects {req : ClaimRequest} (hdry : isDryRun req.dryRun = true) (s : Db) :
    (createClaim hash req s).2 = provisioned hash (claimLevels hash req) s := by
  simp only [createClaim, provisioned, claimLevels]
  split
  · rfl
  simp only [Request.rollback_bind]
  cases postgres.record (resolveClass req.tenant (ipClaimStrategy.prepareForCreate req.claim).className
      (ipClaimStrategy.prepareForCreate req.claim).ipFamily) [] s with
  | error e => rfl
  | ok r =>
    obtain ⟨class_, log⟩ := r
    simp only [Request.ofExcept_bind]
    cases classMatches (ipClaimStrategy.prepareForCreate req.claim) class_ with
    | error e => rfl
    | ok _ =>
      cases hadmitted : req.admitted with
      | false => rfl
      | true =>
        cases hlive : req.namespaceLive with
        | false => rfl
        | true =>
          simp only [not_true_eq_false, if_false]
          cases (ipClaimStrategy.prepareForCreate req.claim).target with
          | scopeRange =>
            simp only [createScopeRange, hdry, if_true]
            rw [bind_silent _ fun _ _ => rollback_silent _ _]
            exact resolveScopeRange_effects _ _ _ _
          | block => exact createBlock_effects hdry _ _ s

def Effect.Additive (e : Effect) : Prop := ∀ k, e ≠ .removeObject k

theorem additive_of_on {k : Key} {e : Effect} (h : Effect.On k e) : Effect.Additive e := by
  rintro k' rfl
  exact h

theorem identities_le {e : Effect} (h : Effect.Additive e) (s : Db) :
    s.identities.length ≤ (e.apply s).identities.length := by
  cases e with
  | removeObject k => exact absurd rfl (h k)
  | insertIdentity i => simp [Effect.apply]
  | _ => exact le_rfl

theorem identities_view_le {es : List Effect} (h : ∀ e ∈ es, Effect.Additive e) (s : Db) :
    s.identities.length ≤ (postgres.view es s).identities.length := by
  induction es generalizing s with
  | nil => exact le_rfl
  | cons e es ih =>
    have hrest := ih (fun e' he' => h e' (List.mem_cons_of_mem _ he')) (e.apply s)
    exact (identities_le (h e List.mem_cons_self) s).trans hrest

variable (emptyDigest : String) (level : CascadeLevel) (source : Key)

theorem insertObject_additive (k : Key) (o : Object) : Emits postgres Effect.Additive (send (.insertObject k o)) := by
  apply Emits.call
  intro s r es hexec
  obtain ⟨-, rfl⟩ := insertObject_ok hexec
  intro e he k' hk'
  rw [List.mem_singleton.mp he] at hk'
  cases hk'

theorem provisionPool_additive : Emits postgres Effect.Additive (provisionPool emptyDigest level source) := by
  apply (Emits.ofExcept _).bind
  intro prefixLen
  apply ((carveFromPool_emits emptyDigest source prefixLen _).mono fun _ => additive_of_on).bind
  intro cidr
  apply (insertObject_additive _ _).bind
  intro _
  exact (materialiseReservations_emits _ _ emptyDigest _).mono fun _ => additive_of_on

theorem lookupPoolIdentity_emits {good : Effect → Prop} (className digest : String) :
    Emits postgres good (lookupPoolIdentity className digest) :=
  emits_read (q := .lookupPoolIdentity className digest) fun _ => rfl

theorem claimPoolIdentity_additive (className digest : String) (key : Key) :
    Emits postgres Effect.Additive (claimPoolIdentity className digest key) := by
  have hclaim : Emits postgres Effect.Additive (send (.claimPoolIdentity ⟨className, digest, key⟩)) := by
    apply Emits.call
    intro s r es hexec
    have h : exec (.claimPoolIdentity ⟨className, digest, key⟩) s = .ok (r, es) := hexec
    simp only [exec] at h
    split at h
    · cases h
      simp
    · cases h
      intro e he k' hk'
      rw [List.mem_singleton.mp he] at hk'
      cases hk'
  apply hclaim.bind
  intro won
  split
  · trivial
  · apply (lookupPoolIdentity_emits className digest).bind
    intro winner
    cases winner <;> trivial

theorem ensureLevel_additive : Emits postgres Effect.Additive (ensureLevel emptyDigest level source) := by
  apply (lookupPoolIdentity_emits _ _).bind
  intro existing
  cases existing with
  | some key => trivial
  | none =>
    apply (claimPoolIdentity_additive _ _ _).bind
    intro claimed
    split
    · exact (provisionPool_additive emptyDigest level source).bind fun _ => trivial
    · trivial

variable {emptyDigest level source}

theorem ensureLevel_known {s : Db} {i : Identity} (h : s.identities.find? (fun i =>
    i.className = level.class_.name && i.scopeDigest = level.scopeDigest) = some i) :
    postgres.record (ensureLevel emptyDigest level source) [] s = .ok ((i.poolKey, false), []) := by
  have hlookup : postgres.record (lookupPoolIdentity level.class_.name level.scopeDigest) [] s =
      .ok (some i.poolKey, []) := by
    apply postgres.record_call
    change Except.ok ((s.identities.find? _).map Identity.poolKey, []) = _
    rw [h]
    rfl
  refine (postgres.record_bind (lookupPoolIdentity level.class_.name level.scopeDigest) _ [] s).trans ?_
  rw [hlookup]
  rfl

theorem provisionPool_keeps (s : Db) :
    postgres.After s (provisionPool emptyDigest level source) fun _ s' =>
      s.identities.length ≤ s'.identities.length := by
  intro _ s' hrun
  obtain ⟨es, rfl, hes⟩ := (provisionPool_additive emptyDigest level source).run hrun
  exact identities_view_le hes s

theorem ensureLevel_grows {s : Db} (h : s.identities.find? (fun i =>
    i.className = level.class_.name && i.scopeDigest = level.scopeDigest) = none) :
    postgres.After s (ensureLevel emptyDigest level source) fun _ s' =>
      s.identities.length < s'.identities.length := by
  have hfree : (s.identities.any fun o => o.className = level.class_.name && o.scopeDigest = level.scopeDigest) =
      false := by
    rw [List.any_eq_false]
    exact List.find?_eq_none.mp h
  have hclaimed : postgres.run (claimPoolIdentity level.class_.name level.scopeDigest level.poolKey) s =
      .ok ((level.poolKey, true), Effect.apply (.insertIdentity ⟨level.class_.name, level.scopeDigest, level.poolKey⟩) s) := by
    have hexec : postgres.exec (.claimPoolIdentity ⟨level.class_.name, level.scopeDigest, level.poolKey⟩) s =
        .ok (true, [.insertIdentity ⟨level.class_.name, level.scopeDigest, level.poolKey⟩]) := by
      simp [postgres, exec, hfree]
    change postgres.run (.step (.claimPoolIdentity _) _) s = _
    simp only [Database.run, hexec]
    rfl
  apply Database.After.step
  intro existing es hexec
  obtain ⟨rfl, rfl⟩ := Prod.mk.inj (Except.ok.inj hexec)
  rw [h]
  refine Database.After.bind (Database.After.pure ?_)
  apply Database.After.bind
  intro claimed s₁ hrun
  obtain ⟨rfl, rfl⟩ := Prod.mk.inj (Except.ok.inj (hclaimed.symm.trans hrun))
  apply Database.After.bind
  refine (provisionPool_keeps _).mono ?_
  intro _ s' hs'
  apply Database.After.pure
  apply lt_of_lt_of_le _ hs'
  simp [Effect.apply]

theorem ensureLevels_known {s : Db} {i : Identity} (h : s.identities.find? (fun i =>
    i.className = level.class_.name && i.scopeDigest = level.scopeDigest) = some i) (rest : List CascadeLevel) :
    ensureLevels emptyDigest (level :: rest) source s = ensureLevels emptyDigest rest i.poolKey s := by
  simp only [ensureLevels, Request.bind_apply, Request.transact_ok (ensureLevel_known h)]
  rfl

theorem ensureLevels_ready {levels : List CascadeLevel} {s : Db} (h : levelsReady emptyDigest levels source s = true) :
    (ensureLevels emptyDigest levels source s).2 = [] := by
  induction levels generalizing source with
  | nil => rfl
  | cons level rest ih =>
    simp only [levelsReady] at h
    split at h
    · rename_i i hi
      rw [ensureLevels_known hi]
      exact ih h
    · split at h
      · cases h
      · rename_i e hrun
        have hrecord := postgres.run_eq_record (ensureLevel emptyDigest level source) [] s
        rw [postgres.view_nil, hrun] at hrecord
        cases hrec : postgres.record (ensureLevel emptyDigest level source) [] s with
        | error e' => simp only [ensureLevels, Request.bind_apply, Request.transact_error hrec]
        | ok r =>
          rw [hrec] at hrecord
          cases hrecord

theorem ensureLevels_le (emptyDigest : String) (levels : List CascadeLevel) (source : Key) (s : Db) :
    s.identities.length ≤ ((ensureLevels emptyDigest levels source).after s).identities.length := by
  induction levels generalizing source s with
  | nil => exact le_rfl
  | cons level rest ih =>
    have hensures : Request.Ensures s (ensureLevels emptyDigest (level :: rest) source) fun _ s' =>
        s.identities.length ≤ s'.identities.length := by
      apply Request.Ensures.bind
      apply Request.Ensures.transact
      · intro ensured s' hrun
        obtain ⟨es, rfl, hes⟩ := (ensureLevel_additive emptyDigest level source).run hrun
        exact (identities_view_le hes s).trans (ih ensured.1 _)
      · exact fun _ => le_rfl
    exact hensures

theorem ensureLevels_grows {levels : List CascadeLevel} {s : Db}
    (h : levelsReady emptyDigest levels source s = false) :
    s.identities.length < ((ensureLevels emptyDigest levels source).after s).identities.length := by
  induction levels generalizing source with
  | nil => cases h
  | cons level rest ih =>
    simp only [levelsReady] at h
    split at h
    · rename_i i hi
      have hstep : (ensureLevels emptyDigest (level :: rest) source).after s =
          (ensureLevels emptyDigest rest i.poolKey).after s := by
        simp only [Request.after, ensureLevels_known hi]
      rw [hstep]
      exact ih h
    · rename_i hnone
      split at h
      · rename_i r hrun
        have hrecord := postgres.run_eq_record (ensureLevel emptyDigest level source) [] s
        rw [postgres.view_nil, hrun] at hrecord
        cases hrec : postgres.record (ensureLevel emptyDigest level source) [] s with
        | error e =>
          rw [hrec] at hrecord
          cases hrecord
        | ok q =>
          rw [hrec] at hrecord
          obtain rfl := Except.ok.inj hrecord
          have hgrown := ensureLevel_grows hnone _ _ hrun
          have hrest := ensureLevels_le emptyDigest rest q.1.1 (postgres.view q.2 s)
          have hstep : (ensureLevels emptyDigest (level :: rest) source).after s =
              (ensureLevels emptyDigest rest q.1.1).after (postgres.view q.2 s) := by
            simp only [Request.after, ensureLevels, Request.bind_apply, Request.transact_ok hrec, postgres.view_append]
          rw [hstep]
          exact hgrown.trans_le hrest
      · cases h

theorem createClaim_dryRun_iff (hash : Scope.Text → String) (req : ClaimRequest) (hdry : isDryRun req.dryRun = true)
    (s : Db) : Untouched (createClaim hash req) s ↔ claimReady hash req s = true := by
  have heffects : (createClaim hash req s).2 = provisioned hash (claimLevels hash req) s := createClaim_effects hdry s
  simp only [provisioned] at heffects
  simp only [Untouched, Request.after, claimReady, heffects]
  cases (claimLevels hash req s).1 with
  | error e => simp
  | ok r =>
    obtain ⟨levels, source⟩ := r
    simp only
    constructor
    · rintro ⟨hsame, -⟩
      by_contra hready
      have hgrown := ensureLevels_grows (Bool.eq_false_iff.mpr hready)
      rw [Request.after, hsame] at hgrown
      exact lt_irrefl _ hgrown
    · intro hready
      simp [ensureLevels_ready hready]

end

def edgeDb : Db :=
  { Db.empty with
    objects :=
      [(classStorageKey "platform" "backbone", .class_ (sharedClass "backbone").spec),
        (classStorageKey "platform" "edge",
          .class_ { (sharedClass "edge").spec with parentClassName := some "backbone", defaultPrefixLength := 28 }),
        (poolStorageKey "platform" "office",
          .pool { poolOf ⟨.v4, 10 * 2 ^ 24, 16, by decide, by decide, Cidr.tenNetwork_lt, Cidr.tenNetwork_unmapped⟩ .firstFit with
            classNames := ["backbone"] })] }

def edgeClaim (name : String) (dryRun : List String) : ClaimRequest where
  tenant := "platform"
  namespace_ := "default"
  name := name
  claim := ⟨"edge", none, none, none, none, [], .block, none, .pending, none, none, none⟩
  admitted := true
  namespaceLive := true
  dryRun := dryRun

theorem createClaim_dryRun_edge :
    Untouched (createClaim zeroDigest (edgeClaim "second" ["All"]))
      ((createClaim zeroDigest (edgeClaim "first" [])).after edgeDb) :=
  (createClaim_dryRun_iff zeroDigest (edgeClaim "second" ["All"]) rfl _).mpr (by decide +kernel)

theorem createClaim_dryRun_provisions :
    isDryRun (edgeClaim "first" ["All"]).dryRun = true ∧
      ((createClaim zeroDigest (edgeClaim "first" ["All"])).after edgeDb).identities.map Identity.className = ["backbone"] ∧
      ¬ Untouched (createClaim zeroDigest (edgeClaim "first" ["All"])) edgeDb := by
  have hprovisioned : ((createClaim zeroDigest (edgeClaim "first" ["All"])).after edgeDb).identities.map
      Identity.className = ["backbone"] := by
    decide +kernel
  refine ⟨rfl, hprovisioned, ?_⟩
  rintro ⟨hsame, -⟩
  rw [hsame] at hprovisioned
  cases hprovisioned

end Ipam.Registry
