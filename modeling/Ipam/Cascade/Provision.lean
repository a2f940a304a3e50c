import Ipam.Allocator.Consistency
import Ipam.Cascade.Resolution

namespace Ipam.Cascade

open Allocation Allocator Database Transaction

inductive Draws (hash : Scope.Text → String) (L : Ledger) (consumer : String) (claimScope : Scope) (c : ResolvedClass)
    (k : Key) : Prop where
  | offered {pool : IPPool} (root : c.spec.parentClassName = none) (offers : Offers L c claimScope k pool)
  | provisioned {upper : CascadeLevel} (parent : ParentOf L c upper.class_)
      (plan : planLevel hash consumer claimScope upper.class_ = .ok upper) (defined : Defined L upper.class_)
      (identity : ⟨upper.class_.name, upper.scopeDigest, k⟩ ∈ L.identities)

def KeepsClasses (L L' : Ledger) : Prop :=
  ∀ k c, L.objects k = some (.class_ c) → L'.objects k = some (.class_ c)

section

variable {L L' : Ledger} (hkeep : KeepsClasses L L')

include hkeep

theorem Defined.mono {c : ResolvedClass} (h : Defined L c) : Defined L' c :=
  ⟨hkeep _ _ h.stored, h.definition⟩

theorem Resolves.mono {project name : String} {c : ResolvedClass} (h : Resolves L project name c) :
    Resolves L' project name c := by
  refine ⟨h.defined.mono hkeep, h.named.imp id ?_⟩
  rintro ⟨ref, href, hsource⟩
  exact ⟨ref, hkeep _ _ href, hsource⟩

theorem ParentOf.mono {child parent : ResolvedClass} (h : ParentOf L child parent) : ParentOf L' child parent := by
  obtain ⟨name, hname, hnames⟩ := h.names
  exact ⟨⟨name, hname, hnames.mono hkeep⟩, h.family⟩

theorem Levels.mono {hash : Scope.Text → String} {consumer : String} {claimScope : Scope} {levels : List CascadeLevel}
    (h : Levels hash L consumer claimScope levels) : Levels hash L' consumer claimScope levels :=
  ⟨h.planned, fun level hlevel => (h.defined level hlevel).mono hkeep,
    h.chain.imp fun _ _ hparent => hparent.mono hkeep⟩

end

theorem keepsClasses_trans {L L' L'' : Ledger} (h : KeepsClasses L L') (h' : KeepsClasses L' L'') :
    KeepsClasses L L'' :=
  fun k c hc => h' k c (h k c hc)

def CascadeLevel.identity (level : CascadeLevel) (k : Key) : Identity :=
  ⟨level.class_.name, level.scopeDigest, k⟩

def CascadeLevel.carve (level : CascadeLevel) : PoolCarve :=
  ⟨level.poolKey, level.scopeDigest⟩

structure Provisioned (ed : String) (level : CascadeLevel) (source : Key) (n : ℤ) (L mid carved L' : Ledger)
    (pool : IPPool) (block : IPNet) (b : Cidr) : Prop where
  fresh : ∀ i ∈ L.identities, ¬ (i.className = level.class_.name ∧ i.scopeDigest = level.scopeDigest)
  length : effectivePrefixLength level.class_.spec none = .ok n
  taken : Taken ed source spaceAll n (level.carve.row source) (L.name (level.identity level.poolKey)) mid carved pool
    block b
  absent : carved.objects level.poolKey = none
  materialised : Materialised ed level.poolKey [block] level.class_.spec.reservations
    (carved.put level.poolKey (.pool (newProvisionedPool level (keyName source) n block).core)) L'

section

variable {ed : String} {level : CascadeLevel} {source : Key} {n : ℤ} {L mid carved L' : Ledger} {pool : IPPool}
  {block : IPNet} {b : Cidr}

theorem Provisioned.objects (h : Provisioned ed level source n L mid carved L' pool block b) :
    L'.objects = Function.update L.objects level.poolKey
        (some (.pool (newProvisionedPool level (keyName source) n block).core)) ∧
      L'.identities = L.identities ++ [level.identity level.poolKey] ∧ L.objects level.poolKey = none := by
  obtain ⟨hobjects, hidentities⟩ := h.materialised.reserves.objects
  obtain ⟨hcarved, hids⟩ := taken_objects h.taken
  have habsent := h.absent
  rw [hcarved] at habsent
  refine ⟨?_, ?_, habsent⟩
  · rw [hobjects]
    simp only [Ledger.put, hcarved]
    rfl
  · rw [hidentities]
    exact hids

theorem Provisioned.mem {r : Row} (h : Provisioned ed level source n L mid carved L' pool block b) (hr : r ∈ L'.rows) :
    r ∈ L.rows ∨ (∃ k, r = reservationRow ed k r.cidr) ∨ r = level.carve.row source b := by
  cases h.materialised.reserves.mem hr with
  | inr hreserved => exact .inr (.inl ⟨_, hreserved⟩)
  | inl hr => exact (h.taken.mem hr).imp_right (Or.imp_left fun hreserved => ⟨_, hreserved⟩)

theorem Provisioned.keepsClasses (h : Provisioned ed level source n L mid carved L' pool block b) :
    KeepsClasses L L' := by
  obtain ⟨hobjects, -, habsent⟩ := h.objects
  intro k c hc
  rw [hobjects, Function.update_of_ne, hc]
  rintro rfl
  rw [habsent] at hc
  cases hc

end

section

variable {ed : String} {s : Db}

theorem lookupPoolIdentity_after (className digest : String) :
    postgres.After s (lookupPoolIdentity className digest) fun found s' =>
      s' = s ∧ found = (s.identities.find? fun i => i.className = className && i.scopeDigest = digest).map
        Identity.poolKey := by
  apply Database.After.call
  intro found es hexec
  obtain ⟨rfl, rfl⟩ := Prod.mk.inj (Except.ok.inj hexec)
  exact ⟨rfl, rfl⟩

theorem mem_of_findIdentity {className digest : String} {k : Key}
    (h : (s.identities.find? fun i => i.className = className && i.scopeDigest = digest).map Identity.poolKey = some k) :
    ⟨className, digest, k⟩ ∈ s.ledger.identities := by
  obtain ⟨i, hi, rfl⟩ := Option.map_eq_some_iff.mp h
  have hmatch := List.find?_some hi
  simp only [Bool.and_eq_true, decide_eq_true_eq] at hmatch
  obtain ⟨rfl, rfl⟩ := hmatch
  exact List.mem_of_find?_eq_some hi

theorem claimPoolIdentity_after (className digest : String) (k : Key) :
    postgres.After s (claimPoolIdentity className digest k) fun claimed s' =>
      if claimed.2 then claimed.1 = k ∧ s'.ledger = s.ledger.name ⟨className, digest, k⟩
      else s' = s ∧ ⟨className, digest, claimed.1⟩ ∈ s.ledger.identities := by
  apply Database.After.step
  intro won es hexec
  have h : exec (.claimPoolIdentity ⟨className, digest, k⟩) s = .ok (won, es) := hexec
  simp only [exec] at h
  split at h
  · cases h
    change postgres.After s (lookupPoolIdentity className digest >>= _) _
    apply Database.After.bind
    refine (lookupPoolIdentity_after className digest).mono ?_
    rintro found s₁ ⟨hs₁, hfound⟩
    rw [hs₁]
    cases hk : found with
    | none => exact .throw
    | some winner =>
      refine .pure ⟨rfl, mem_of_findIdentity ?_⟩
      rw [← hfound, hk]
  · cases h
    exact .pure ⟨rfl, ledger_apply (.insertIdentity ⟨className, digest, k⟩) s⟩

theorem provisionPool_after (level : CascadeLevel) (source : Key) :
    postgres.After s (provisionPool ed level source) fun _ s' => ∃ n mid carved pool block b,
      effectivePrefixLength level.class_.spec none = .ok n ∧
        Taken ed source spaceAll n (level.carve.row source) s.ledger mid carved pool block b ∧
        carved.objects level.poolKey = none ∧
        Materialised ed level.poolKey [block] level.class_.spec.reservations
          (carved.put level.poolKey (.pool (newProvisionedPool level (keyName source) n block).core)) s'.ledger := by
  apply Database.After.bind
  apply Database.After.ofExcept
  intro n hn
  apply Database.After.bind
  refine (carveFromPool_after source n level.carve).mono ?_
  rintro block s₁ ⟨mid, pool, b, htaken⟩
  apply Database.After.bind
  refine (insertObject_after level.poolKey _).mono ?_
  rintro _ s₂ ⟨habsent, hput⟩
  have hstored : s₂.ledger.objects level.poolKey =
      some (.pool (setPoolCapacityStatus (newProvisionedPool level (keyName source) n block) [block] 0).core) := by
    rw [hput]
    exact Function.update_self _ _ _
  refine (materialiseReservations_after hstored).mono ?_
  intro _ s₃ hmat
  rw [hput] at hmat
  exact ⟨n, mid, _, pool, block, b, hn, htaken, habsent, hmat⟩

theorem ensureLevel_after (level : CascadeLevel) (source : Key) :
    postgres.After s (ensureLevel ed level source) fun ensured s' =>
      level.identity ensured.1 ∈ s'.ledger.identities ∧
        (s' = s ∨ ∃ n mid carved pool block b,
          Provisioned ed level source n s.ledger mid carved s'.ledger pool block b) := by
  apply Database.After.bind
  refine (lookupPoolIdentity_after level.class_.name level.scopeDigest).mono ?_
  rintro existing s₀ ⟨hs₀, hexisting⟩
  rw [hs₀]
  cases hk : existing with
  | some k =>
    rw [hk] at hexisting
    exact .pure ⟨mem_of_findIdentity hexisting.symm, .inl rfl⟩
  | none =>
    rw [hk, eq_comm, Option.map_eq_none_iff, List.find?_eq_none] at hexisting
    apply Database.After.bind
    refine (claimPoolIdentity_after level.class_.name level.scopeDigest level.poolKey).mono ?_
    rintro ⟨k, won⟩ s₁ h₁
    cases won with
    | false =>
      obtain ⟨hs₁, hmem⟩ := h₁
      rw [hs₁]
      exact .pure ⟨hmem, .inl rfl⟩
    | true =>
      obtain ⟨hk, hname⟩ := h₁
      apply Database.After.bind
      refine (provisionPool_after level source).mono ?_
      rintro _ s₂ ⟨n, mid, carved, pool, block, b, hn, htaken, habsent, hmat⟩
      rw [hname] at htaken
      have hprov : Provisioned ed level source n s.ledger mid carved s₂.ledger pool block b := by
        refine ⟨?_, hn, htaken, habsent, hmat⟩
        intro i hi hmatch
        exact hexisting i hi (by simp [hmatch])
      have hkey : k = level.poolKey := hk
      refine .pure ⟨?_, .inr ⟨n, mid, carved, pool, block, b, hprov⟩⟩
      rw [hprov.objects.2.1, hkey]
      exact List.mem_append_right _ (List.mem_singleton_self _)

theorem ensureLevels_ensures {hash : Scope.Text → String} {consumer : String} {claimScope : Scope}
    {R : Ledger → Ledger → Prop}
    (hR : ∀ {L L' level source n mid carved pool block b}, planLevel hash consumer claimScope level.class_ = .ok level →
      Defined L level.class_ → Draws hash L consumer claimScope level.class_ source →
      Provisioned ed level source n L mid carved L' pool block b → R L L')
    {levels : List CascadeLevel} {source : Key} (hlevels : Levels hash s.ledger consumer claimScope levels)
    (hsource : ∀ level ∈ levels.head?, Draws hash s.ledger consumer claimScope level.class_ source) :
    Request.Ensures s (ensureLevels ed levels source) fun answer s' =>
      Relation.ReflTransGen R s.ledger s'.ledger ∧ KeepsClasses s.ledger s'.ledger ∧
        ∀ k, answer = .ok k → levels = [] ∧ k = source ∧ s' = s ∨
          ∃ level ∈ levels.getLast?, level.identity k ∈ s'.ledger.identities := by
  induction levels generalizing s source with
  | nil => exact .pure ⟨.refl, fun _ _ hc => hc, fun k hk => .inl ⟨rfl, (Except.ok.inj hk).symm, rfl⟩⟩
  | cons level rest ih =>
    have hplan := hlevels.planned level List.mem_cons_self
    have hdefined := hlevels.defined level List.mem_cons_self
    apply Request.Ensures.bind
    apply Request.Ensures.transact
    · refine (ensureLevel_after level source).mono ?_
      rintro ⟨k, created⟩ s₁ ⟨hidentity, hstep⟩
      have hR₁ : Relation.ReflTransGen R s.ledger s₁.ledger ∧ KeepsClasses s.ledger s₁.ledger := by
        cases hstep with
        | inl hsame =>
          rw [hsame]
          exact ⟨.refl, fun _ _ hc => hc⟩
        | inr hprov =>
          obtain ⟨n, mid, carved, pool, block, b, hprov⟩ := hprov
          exact ⟨.single (hR hplan hdefined (hsource level rfl) hprov), hprov.keepsClasses⟩
      obtain ⟨hchain, hkeep⟩ := hR₁
      have hall := hlevels.mono hkeep
      have hrest : Levels hash s₁.ledger consumer claimScope rest :=
        ⟨fun l hl => hall.planned l (List.mem_cons_of_mem _ hl),
          fun l hl => hall.defined l (List.mem_cons_of_mem _ hl), hall.chain.tail⟩
      have hnext : ∀ l ∈ rest.head?, Draws hash s₁.ledger consumer claimScope l.class_ k := by
        intro l hl
        cases rest with
        | nil => simp at hl
        | cons l' rest' =>
          obtain rfl : l' = l := by simpa using hl
          exact .provisioned (List.isChain_cons_cons.mp hall.chain).1 hplan (hdefined.mono hkeep) hidentity
      refine (ih hrest hnext).mono ?_
      rintro answer s₂ ⟨hchain₂, hkeep₂, hanswer⟩
      refine ⟨hchain.trans hchain₂, keepsClasses_trans hkeep hkeep₂, ?_⟩
      intro k' hk'
      right
      cases hanswer k' hk' with
      | inl hdone =>
        obtain ⟨rfl, rfl, rfl⟩ := hdone
        exact ⟨level, rfl, hidentity⟩
      | inr hlast =>
        obtain ⟨l, hl, hmem⟩ := hlast
        refine ⟨l, ?_, hmem⟩
        cases rest with
        | nil => simp at hl
        | cons l' rest' => rwa [List.getLast?_cons_cons]
    · intro e
      refine ⟨.refl, fun _ _ hc => hc, ?_⟩
      intro k hk
      cases hk

end

end Ipam.Cascade
