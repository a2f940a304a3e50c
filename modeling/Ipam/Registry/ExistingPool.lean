import Ipam.Cascade.PlanAgreement
import Ipam.Registry.Conformance
import Ipam.Registry.DryRun

namespace Ipam.Registry

open Allocation Allocator Cascade Database Transaction

inductive Existing where
  | pool (key : Key)
  | pending (levels : List CascadeLevel)
  deriving DecidableEq, Repr

def existingLevels : List CascadeLevel → Key → Tx Existing
  | [], poolKey => pure (.pool poolKey)
  | level :: rest, _ => do
    let existing ← lookupPoolIdentity level.class_.name level.scopeDigest
    match existing with
    | none => pure (.pending (level :: rest))
    | some key => existingLevels rest key

def existingFrom (leaf : ResolvedClass) (claimScope : Scope) : List CascadeLevel → Tx Existing
  | [] => do
    let key ← discoverPool leaf claimScope
    pure (.pool key)
  | first :: rest => do
    -- there is a level, so this pool is never the answer
    let source ← discoverPool first.class_ claimScope
    existingLevels (first :: rest) source

def resolveExistingPool (hash : Scope.Text → String) (consumer : String) (leaf : ResolvedClass) (claimScope : Scope) :
    Handler Existing :=
  Request.rollback do
    let levels ← planCascade hash consumer leaf claimScope
    existingFrom leaf claimScope levels

def Unprovisioned (s : Db) (level : CascadeLevel) : Prop :=
  ∀ i ∈ s.identities, ¬ (i.className = level.class_.name ∧ i.scopeDigest = level.scopeDigest)

instance (s : Db) : DecidablePred (Unprovisioned s) :=
  fun _ => inferInstanceAs (Decidable (∀ i ∈ s.identities, _))

structure Provisions (s s' : Db) (levels : List CascadeLevel) : Prop where
  identities : s'.identities = s.identities ++ levels.map fun level => level.identity level.poolKey
  pools : ∀ level ∈ levels, s.ledger.objects level.poolKey = none ∧ ∃ pool,
    s'.ledger.objects level.poolKey = some (.pool pool) ∧ pool.classRef = some level.class_.name ∧
      pool.scopeDigest = level.scopeDigest
  others : ∀ k, (∀ level ∈ levels, k ≠ level.poolKey) → s'.ledger.objects k = s.ledger.objects k

section

variable {s : Db} {level : CascadeLevel}

theorem find?_eq_none_iff : (s.identities.find? fun i => i.className = level.class_.name &&
    i.scopeDigest = level.scopeDigest) = none ↔ Unprovisioned s level := by
  simp only [List.find?_eq_none, Unprovisioned, Bool.and_eq_true, decide_eq_true_eq]

theorem run_lookupPoolIdentity (s : Db) (className digest : String) :
    postgres.run (lookupPoolIdentity className digest) s =
      .ok ((s.identities.find? fun i => i.className = className && i.scopeDigest = digest).map Identity.poolKey, s) := rfl

theorem existingLevels_eq (ed : String) (levels : List CascadeLevel) (source : Key) (s : Db) :
    ∃ found, postgres.run (existingLevels levels source) s = .ok (found, s) ∧
      match found with
      | .pool key => ensureLevels ed levels source s = (.ok key, [])
      | .pending pending => ∃ named source', levels = named ++ pending ∧ (∀ level ∈ named, ¬ Unprovisioned s level) ∧
          (∃ level rest, pending = level :: rest ∧ Unprovisioned s level) ∧
          ensureLevels ed levels source s = ensureLevels ed pending source' s := by
  induction levels generalizing source with
  | nil => exact ⟨.pool source, rfl, rfl⟩
  | cons level rest ih =>
    have hrun : postgres.run (existingLevels (level :: rest) source) s =
        match (s.identities.find? fun i => i.className = level.class_.name && i.scopeDigest = level.scopeDigest).map
          Identity.poolKey with
        | none => .ok (.pending (level :: rest), s)
        | some key => postgres.run (existingLevels rest key) s := by
      refine (postgres.run_bind (lookupPoolIdentity level.class_.name level.scopeDigest) _ s).trans ?_
      rw [run_lookupPoolIdentity]
      cases (s.identities.find? fun i => i.className = level.class_.name &&
        i.scopeDigest = level.scopeDigest).map Identity.poolKey with
      | none => rfl
      | some key => rfl
    cases hfind : s.identities.find? fun i => i.className = level.class_.name && i.scopeDigest = level.scopeDigest with
    | none =>
      rw [hfind] at hrun
      refine ⟨.pending (level :: rest), hrun, [], source, rfl, by simp, ?_, rfl⟩
      exact ⟨level, rest, rfl, find?_eq_none_iff.mp hfind⟩
    | some i =>
      rw [hfind] at hrun
      have hnamed : ¬ Unprovisioned s level := by
        rw [← find?_eq_none_iff, hfind]
        exact Option.some_ne_none i
      obtain ⟨found, hfound, hensured⟩ := ih i.poolKey
      refine ⟨found, hrun.trans hfound, ?_⟩
      cases found with
      | pool key => exact (ensureLevels_known hfind rest).trans hensured
      | pending pending =>
        obtain ⟨named, source', hsplit, hall, hhead, hsame⟩ := hensured
        refine ⟨level :: named, source', by rw [hsplit, List.cons_append], ?_, hhead, ?_⟩
        · intro l hl
          cases List.mem_cons.mp hl with
          | inl heq => exact heq ▸ hnamed
          | inr hl => exact hall l hl
        · exact (ensureLevels_known hfind rest).trans hsame

theorem Provisions.one {ed : String} {source : Key} {n : ℤ} {mid carved : Ledger} {pool : IPPool} {block : IPNet}
    {b : Cidr} {s' : Db} (h : Provisioned ed level source n s.ledger mid carved s'.ledger pool block b) :
    Provisions s s' [level] := by
  obtain ⟨hobjects, hidentities, habsent⟩ := h.objects
  refine ⟨hidentities, ?_, ?_⟩
  · intro l hl
    rw [List.mem_singleton.mp hl]
    refine ⟨habsent, (newProvisionedPool level (keyName source) n block).core, ?_, rfl, rfl⟩
    rw [hobjects]
    exact Function.update_self _ _ _
  · intro k hk
    rw [hobjects]
    exact Function.update_of_ne (hk level (List.mem_singleton_self level)) _ _

theorem Provisions.cons {s₁ s₂ : Db} {levels : List CascadeLevel} (h : Provisions s s₁ [level])
    (hrest : Provisions s₁ s₂ levels) : Provisions s s₂ (level :: levels) := by
  obtain ⟨habsent, pool, hstored, hclass, hdigest⟩ := h.pools level (List.mem_singleton_self level)
  have hfresh : ∀ l ∈ levels, l.poolKey ≠ level.poolKey := by
    intro l hl heq
    have hnone := (hrest.pools l hl).1
    rw [heq, hstored] at hnone
    cases hnone
  refine ⟨?_, ?_, ?_⟩
  · rw [hrest.identities, h.identities, List.append_assoc]
    rfl
  · intro l hl
    cases List.mem_cons.mp hl with
    | inl heq =>
      rw [heq]
      refine ⟨habsent, pool, ?_, hclass, hdigest⟩
      rw [hrest.others _ fun l hl => (hfresh l hl).symm]
      exact hstored
    | inr hl =>
      obtain ⟨hnone, hpool⟩ := hrest.pools l hl
      rw [h.others _ fun l' hl' => List.mem_singleton.mp hl' ▸ hfresh l hl] at hnone
      exact ⟨hnone, hpool⟩
  · intro k hk
    rw [hrest.others k fun l hl => hk l (List.mem_cons_of_mem _ hl)]
    exact h.others k fun l hl => List.mem_singleton.mp hl ▸ hk level List.mem_cons_self

def Distinct (l l' : CascadeLevel) : Prop :=
  ¬ (l.class_.name = l'.class_.name ∧ l.scopeDigest = l'.scopeDigest)

theorem unprovisioned_iff {s₁ : Db} {l : CascadeLevel} (h : Provisions s s₁ [level]) (hl : Distinct level l) :
    Unprovisioned s₁ l ↔ Unprovisioned s l := by
  simp only [Unprovisioned, h.identities, List.mem_append, List.map_cons, List.map_nil, List.mem_singleton]
  constructor
  · exact fun hall i hi => hall i (.inl hi)
  · rintro hall i (hi | rfl)
    · exact hall i hi
    · exact hl

theorem ensureLevels_provisions {ed : String} {levels : List CascadeLevel} (hdistinct : levels.Pairwise Distinct)
    (source : Key) :
    Request.Ensures s (ensureLevels ed levels source) fun answer s' => ∀ key, answer = .ok key →
      Provisions s s' (levels.filter fun level => Unprovisioned s level) := by
  induction levels generalizing s source with
  | nil => exact .pure fun _ _ => ⟨by simp, by simp, fun _ _ => rfl⟩
  | cons level rest ih =>
    obtain ⟨hhead, hrest⟩ := List.pairwise_cons.mp hdistinct
    by_cases hun : Unprovisioned s level
    · rw [List.filter_cons_of_pos (by simpa using hun)]
      apply Request.Ensures.bind
      apply Request.Ensures.transact
      · refine (ensureLevel_after level source).mono ?_
        rintro ⟨k, created⟩ s₁ ⟨hidentity, hsame | ⟨n, mid, carved, pool, block, b, hprov⟩⟩
        · rw [hsame] at hidentity
          exact absurd ⟨rfl, rfl⟩ (hun _ hidentity)
        have hone : Provisions s s₁ [level] := .one hprov
        have hfilter : rest.filter (fun l => Unprovisioned s₁ l) = rest.filter fun l => Unprovisioned s l := by
          apply List.filter_congr
          intro l hl
          simp only [unprovisioned_iff hone (hhead l hl)]
        refine (ih hrest k).mono ?_
        intro answer s₂ hall key hkey
        have hprovs := hall key hkey
        rw [hfilter] at hprovs
        exact hone.cons hprovs
      · intro e key hkey
        cases hkey
    · rw [List.filter_cons_of_neg (by simpa using hun)]
      obtain ⟨i, hi⟩ := Option.ne_none_iff_exists'.mp fun hnone => hun (find?_eq_none_iff.mp hnone)
      have hstep : ensureLevels ed (level :: rest) source s = ensureLevels ed rest i.poolKey s :=
        ensureLevels_known hi rest
      have hall := ih (s := s) hrest i.poolKey
      simp only [Request.Ensures, Request.after, hstep] at hall ⊢
      exact hall

theorem planCascade_reads (hash : Scope.Text → String) (consumer : String) (leaf : ResolvedClass) (claimScope : Scope) :
    postgres.After s (planCascade hash consumer leaf claimScope) fun _ s' => s' = s := by
  apply Database.After.bind
  refine (loadAncestry_after leaf).mono ?_
  rintro chain s₁ ⟨hs₁, -⟩
  rw [hs₁]
  exact .ofExcept fun _ _ => rfl

theorem discoverPool_reads (c : ResolvedClass) (claimScope : Scope) :
    postgres.After s (discoverPool c claimScope) fun _ s' => s' = s := by
  apply Database.After.bind
  refine (chainRoot_after c).mono ?_
  rintro root s₁ ⟨hs₁, -⟩
  rw [hs₁]
  apply select_after
  exact .ofOption fun _ _ => rfl

theorem ancestryFrom_distinct {leaf : ResolvedClass} (turns : ℕ) (current : ResolvedClass) (seen : List Key) :
    postgres.After s (ancestryFrom leaf turns current seen) fun chain _ =>
      (∀ c ∈ chain, classStorageKey c.project c.name ∉ seen) ∧
        (chain.map fun c => classStorageKey c.project c.name).Nodup := by
  induction turns generalizing current seen with
  | zero => exact .throw
  | succ turns ih =>
    simp only [ancestryFrom]
    cases current.spec.parentClassName with
    | none => exact .pure ⟨by simp, by simp⟩
    | some name =>
      apply Database.After.bind
      refine (resolveClassIn_after current.project name).mono ?_
      rintro parent s₁ ⟨hs₁, -⟩
      rw [hs₁]
      split
      · exact .throw
      rename_i hnew
      split
      · exact .throw
      apply Database.After.bind
      refine (ih parent _).mono ?_
      rintro rest s₂ ⟨hunseen, hnodup⟩
      refine .pure ⟨?_, ?_⟩
      · intro c hc
        cases List.mem_cons.mp hc with
        | inl heq => exact heq ▸ hnew
        | inr hc => exact fun hseen => hunseen c hc (List.mem_cons_of_mem _ hseen)
      · rw [List.map_cons, List.nodup_cons]
        refine ⟨?_, hnodup⟩
        intro hmem
        obtain ⟨c, hc, heq⟩ := List.mem_map.mp hmem
        exact hunseen c hc (heq ▸ List.mem_cons_self)

end

section

variable (hash : Scope.Text → String) (consumer : String) (claimScope : Scope)

def HasPool (s : Db) (c : ResolvedClass) : Prop :=
  ∃ level, planLevel hash consumer claimScope c = .ok level ∧ ¬ Unprovisioned s level

def Gapless (s : Db) (leaf : ResolvedClass) : Prop :=
  ∀ chain, Ancestors s.ledger leaf chain →
    chain.Pairwise fun lower upper => HasPool hash consumer claimScope s lower → HasPool hash consumer claimScope s upper

end

section

variable {hash : Scope.Text → String} {consumer : String} {claimScope : Scope} {s : Db} {leaf : ResolvedClass}

theorem hasPool_level {level : CascadeLevel} (h : planLevel hash consumer claimScope level.class_ = .ok level) :
    HasPool hash consumer claimScope s level.class_ ↔ ¬ Unprovisioned s level := by
  constructor
  · rintro ⟨level', hlevel', hnamed⟩
    obtain rfl := Except.ok.inj (h.symm.trans hlevel')
    exact hnamed
  · exact fun hnamed => ⟨level, h, hnamed⟩

theorem HasPool.same {c d : ResolvedClass} (hsame : c.Same d) (h : HasPool hash consumer claimScope s c) :
    HasPool hash consumer claimScope s d := by
  obtain ⟨level, hlevel, hnamed⟩ := h
  have hd : ∃ level', planLevel hash consumer claimScope d = .ok level' := by
    obtain ⟨hspec, hname, hproject⟩ := hsame
    simp only [planLevel, ← hspec, ← hname, ← hproject] at hlevel ⊢
    cases hroles : projectFor claimScope (poolPerRoles c.spec.poolPer).1 "poolPer" with
    | error e =>
      rw [hroles] at hlevel
      cases hlevel
    | ok projected => exact ⟨_, rfl⟩
  obtain ⟨level', hlevel'⟩ := hd
  have hlevels := planLevel_same hsame hlevel hlevel'
  refine ⟨level', hlevel', ?_⟩
  simpa only [Unprovisioned, hlevels.class_.name, hlevels.scopeDigest] using hnamed

theorem pairwise_of_forall₂ {α : Type} {R P : α → α → Prop} (hP : ∀ {a b a' b'}, R a a' → R b b' → P a b → P a' b')
    {l l' : List α} (hR : List.Forall₂ R l l') (h : l.Pairwise P) : l'.Pairwise P := by
  induction hR with
  | nil => exact .nil
  | @cons a a' rest rest' ha hrest ih =>
    obtain ⟨hhead, htail⟩ := List.pairwise_cons.mp h
    refine List.pairwise_cons.mpr ⟨?_, ih htail⟩
    intro b' hb'
    clear ih h htail
    induction hrest with
    | nil => cases hb'
    | @cons b b₁ _ _ hb _ ih =>
      cases List.mem_cons.mp hb' with
      | inl heq => exact heq ▸ hP ha hb (hhead b List.mem_cons_self)
      | inr hb' => exact ih (fun c hc => hhead c (List.mem_cons_of_mem _ hc)) hb'

theorem planCascade_plan :
    postgres.After s (planCascade hash consumer leaf claimScope) fun levels _ => ∃ chain,
      Ancestors s.ledger leaf chain ∧ levels.map CascadeLevel.class_ = chain.reverse ∧
        (∀ level ∈ levels, planLevel hash consumer claimScope level.class_ = .ok level) ∧
        (chain.map fun c => classStorageKey c.project c.name).Nodup := by
  apply Database.After.bind
  refine ((loadAncestry_after leaf).and (ancestryFrom_distinct _ leaf _)).mono ?_
  rintro chain s₁ ⟨⟨-, hchain⟩, -, hnodup⟩
  apply Database.After.ofExcept
  intro levels hlevels
  obtain ⟨hdefined, hlinked, hroot⟩ := hchain.facts
  have hroot' : ∀ c ∈ chain.getLast?, c.spec.parentClassName = none := by
    intro c hc
    cases chain with
    | nil => simp at hc
    | cons a rest => exact hroot c (by rwa [List.getLast?_cons_cons])
  obtain ⟨hplan, hclasses, -⟩ := planLevels_levels hdefined hlinked.tail hroot' hlevels
  exact ⟨chain, hchain, hclasses, hplan.planned, hnodup⟩

theorem gapless_iff {levels : List CascadeLevel} {chain : List ResolvedClass} (hchain : Ancestors s.ledger leaf chain)
    (hclasses : levels.map CascadeLevel.class_ = chain.reverse)
    (hplanned : ∀ level ∈ levels, planLevel hash consumer claimScope level.class_ = .ok level) :
    Gapless hash consumer claimScope s leaf ↔
      levels.Pairwise fun upper lower => Unprovisioned s upper → Unprovisioned s lower := by
  have hthis : (chain.Pairwise fun lower upper =>
      HasPool hash consumer claimScope s lower → HasPool hash consumer claimScope s upper) ↔
        levels.Pairwise fun upper lower => Unprovisioned s upper → Unprovisioned s lower := by
    rw [← List.reverse_reverse chain, ← hclasses, List.pairwise_reverse, List.pairwise_map]
    apply List.Pairwise.iff_of_mem
    intro upper lower hupper hlower
    rw [hasPool_level (hplanned upper hupper), hasPool_level (hplanned lower hlower), not_imp_not]
  rw [← hthis]
  constructor
  · exact fun h => h chain hchain
  · intro h chain' hchain'
    refine pairwise_of_forall₂ ?_ (hchain.unique ⟨rfl, rfl, rfl⟩ hchain') h
    intro a b a' b' ha hb hab ha'
    exact (hab (ha'.same ha.symm)).same hb

theorem plan_distinct (hhash : Function.Injective hash) {levels : List CascadeLevel} {chain : List ResolvedClass}
    (hclasses : levels.map CascadeLevel.class_ = chain.reverse)
    (hplanned : ∀ level ∈ levels, planLevel hash consumer claimScope level.class_ = .ok level)
    (hnodup : (chain.map fun c => classStorageKey c.project c.name).Nodup) : levels.Pairwise Distinct := by
  have hkeys : (levels.map fun l => classStorageKey l.class_.project l.class_.name).Nodup := by
    have hreverse := List.nodup_reverse.mpr hnodup
    rw [← List.map_reverse, ← hclasses, List.map_map] at hreverse
    exact hreverse
  refine (List.pairwise_map.mp hkeys).imp_of_mem ?_
  rintro l l' hl hl' hne ⟨hname, hdigest⟩
  obtain ⟨-, howner, hd, -⟩ := planLevel_class (hplanned l hl)
  obtain ⟨-, howner', hd', -⟩ := planLevel_class (hplanned l' hl')
  rw [hd, hd'] at hdigest
  have htenancy := poolDigest_inj hhash hdigest
  apply hne
  rw [← howner, ← howner', htenancy, hname]

theorem provisions_pending_iff {named pending : List CascadeLevel} {s' : Db}
    (hnamed : ∀ level ∈ named, ¬ Unprovisioned s level)
    (hhead : ∃ level rest, pending = level :: rest ∧ Unprovisioned s level)
    (hall : Provisions s s' ((named ++ pending).filter fun level => Unprovisioned s level)) :
    Provisions s s' pending ↔
      (named ++ pending).Pairwise fun upper lower => Unprovisioned s upper → Unprovisioned s lower := by
  have hfilter : (named ++ pending).filter (fun level => Unprovisioned s level) =
      pending.filter fun level => Unprovisioned s level := by
    rw [List.filter_append, List.filter_eq_nil_iff.mpr (by simpa using hnamed), List.nil_append]
  rw [hfilter] at hall
  constructor
  · intro hpending
    have hlength : (pending.filter fun level => Unprovisioned s level).length = pending.length := by
      have hids := congrArg List.length (hall.identities.symm.trans hpending.identities)
      simpa using hids
    have hmissing : ∀ level ∈ pending, Unprovisioned s level := by
      simpa using List.length_filter_eq_length_iff.mp hlength
    rw [List.pairwise_append]
    refine ⟨?_, ?_, ?_⟩
    · exact List.pairwise_of_forall_mem_list fun upper hupper _ _ hun => absurd hun (hnamed upper hupper)
    · exact List.pairwise_of_forall_mem_list fun _ _ lower hlower _ => hmissing lower hlower
    · exact fun _ _ lower hlower _ => hmissing lower hlower
  · intro hpairs
    obtain ⟨level, rest, rfl, hmissing⟩ := hhead
    have hrest := (List.pairwise_cons.mp (List.pairwise_append.mp hpairs).2.1).1
    have hself : (level :: rest).filter (fun level => Unprovisioned s level) = level :: rest := by
      apply List.filter_eq_self.mpr
      intro l hl
      cases List.mem_cons.mp hl with
      | inl heq => simpa [heq] using hmissing
      | inr hl => simpa using hrest l hl hmissing
    rwa [hself] at hall

theorem resolveExistingPool_eq (hash : Scope.Text → String) (consumer : String) (leaf : ResolvedClass)
    (claimScope : Scope) (s : Db) :
    (resolveExistingPool hash consumer leaf claimScope s).1 =
      (postgres.run (planCascade hash consumer leaf claimScope) s).bind fun plan =>
        (postgres.run (existingFrom leaf claimScope plan.1) s).map Prod.fst := by
  have hrun := postgres.run_bind (planCascade hash consumer leaf claimScope) (existingFrom leaf claimScope) s
  have hrollback := Request.rollback_apply (D := postgres)
    ((planCascade hash consumer leaf claimScope).bind (existingFrom leaf claimScope)) s
  rw [hrun] at hrollback
  refine (congrArg Prod.fst hrollback).trans ?_
  cases hplan : postgres.run (planCascade hash consumer leaf claimScope) s with
  | error e => rfl
  | ok plan =>
    obtain ⟨levels, s'⟩ := plan
    obtain rfl := planCascade_reads hash consumer leaf claimScope _ _ hplan
    rfl

theorem run_existingFrom (leaf : ResolvedClass) (claimScope : Scope) (levels : List CascadeLevel) (s : Db) :
    (postgres.run (existingFrom leaf claimScope levels) s).map Prod.fst =
      match levels with
      | [] => (postgres.run (discoverPool leaf claimScope) s).map fun found => .pool found.1
      | first :: rest => (postgres.run (discoverPool first.class_ claimScope) s).bind fun found =>
          (postgres.run (existingLevels (first :: rest) found.1) s).map Prod.fst := by
  cases levels with
  | nil =>
    have hrun := postgres.run_bind (discoverPool leaf claimScope) (fun key => .pure (Existing.pool key)) s
    refine (congrArg (Except.map Prod.fst) hrun).trans ?_
    cases postgres.run (discoverPool leaf claimScope) s with
    | error e => rfl
    | ok found => rfl
  | cons first rest =>
    have hrun := postgres.run_bind (discoverPool first.class_ claimScope) (existingLevels (first :: rest)) s
    refine (congrArg (Except.map Prod.fst) hrun).trans ?_
    dsimp only
    cases hdiscover : postgres.run (discoverPool first.class_ claimScope) s with
    | error e => rfl
    | ok found =>
      obtain ⟨source, s'⟩ := found
      obtain rfl := discoverPool_reads first.class_ claimScope _ _ hdiscover
      rfl

theorem resolveExistingPool_predicts (hhash : Function.Injective hash) (consumer : String) (leaf : ResolvedClass)
    (claimScope : Scope) (s : Db) :
    (∀ key, (resolveExistingPool hash consumer leaf claimScope s).1 = .ok (.pool key) →
      resolvePool hash consumer leaf claimScope s = (.ok key, [])) ∧
    (∀ e, (resolveExistingPool hash consumer leaf claimScope s).1 = .error e →
      resolvePool hash consumer leaf claimScope s = (.error e, [])) ∧
    ∀ pending, (resolveExistingPool hash consumer leaf claimScope s).1 = .ok (.pending pending) →
      ∀ key, (resolvePool hash consumer leaf claimScope s).1 = .ok key →
        (Provisions s ((resolvePool hash consumer leaf claimScope).after s) pending ↔
          Gapless hash consumer claimScope s leaf) := by
  rw [resolveExistingPool_eq]
  simp only [Request.after]
  simp only [resolvePool, discoverInTx, Request.rollback_bind_run]
  cases hplan : postgres.run (planCascade hash consumer leaf claimScope) s with
  | error e => simp [Except.bind]
  | ok plan =>
    obtain ⟨levels, s'⟩ := plan
    simp only [Except.bind, run_existingFrom]
    cases levels with
    | nil =>
      simp only [Request.rollback_apply]
      cases postgres.run (discoverPool leaf claimScope) s with
      | error e => simp [Except.map]
      | ok found => simp [Except.map]
    | cons first rest =>
      simp only [Request.rollback_bind_run]
      cases postgres.run (discoverPool first.class_ claimScope) s with
      | error e => simp
      | ok found =>
        obtain ⟨existing, hexisting, hensured⟩ :=
          existingLevels_eq (emptyAddressSpaceDigest hash) (first :: rest) found.1 s
        simp only [hexisting, Except.map]
        cases existing with
        | pool key =>
          rw [hensured]
          simp
        | pending pending =>
          obtain ⟨named, source, hsplit, hnamed, hhead, -⟩ := hensured
          obtain ⟨chain, hchain, hclasses, hplanned, hnodup⟩ := planCascade_plan _ _ hplan
          refine ⟨by simp, by simp, ?_⟩
          intro pending' hpending key hkey
          obtain rfl : pending = pending' := by simpa using hpending
          have hall := ensureLevels_provisions (plan_distinct hhash hclasses hplanned hnodup) found.1 key hkey
          rw [gapless_iff hchain hclasses hplanned]
          rw [hsplit] at hall ⊢
          exact provisions_pending_iff hnamed hhead hall

end

def siteClass (parentName : Option String) (poolPer : List String) (length : ℤ) : IPClass :=
  { hostsClass with parentClassName := parentName, poolPer := poolPer, defaultPrefixLength := length }

def siteClassRequest (name : String) (class_ : IPClass) : ClassRequest :=
  ⟨"infra", name, class_, none, true, []⟩

def siteDb : Db :=
  let classes := serve byteChars (.createClass (siteClassRequest "hosts" (siteClass (some "metro") [] 32)))
    (serve byteChars (.createClass (siteClassRequest "metro" (siteClass (some "backbone") [] 28)))
      (serve byteChars (.createClass (siteClassRequest "backbone" (siteClass none ["location"] 26))) Db.empty))
  serve byteChars (.createPool { hostsPoolRequest 0 with
    pool := { (hostsPoolRequest 0).pool with classNames := ["backbone"] } }) classes

theorem siteDb_served : Served (serve byteChars) (fun _ _ => True) Db.empty siteDb := by
  unfold siteDb
  exact .serve _ (.serve _ (.serve _ (.serve _ .start trivial) trivial) trivial) trivial

def siteScope (location : String) : Scope :=
  [("location", ⟨"", "Location", location⟩)]

def siteLeaf : ResolvedClass :=
  ⟨siteClass (some "metro") [] 32, "hosts", "infra", "hosts"⟩

def siteRequest (location : String) : ClaimRequest :=
  { hostsRequest none with claim := { hostsClaim none with scope := siteScope location } }

theorem gapless_of_no_identities {hash : Scope.Text → String} {consumer : String} {claimScope : Scope} {s : Db}
    (h : s.identities = []) (leaf : ResolvedClass) : Gapless hash consumer claimScope s leaf := by
  intro chain _
  refine List.pairwise_of_forall fun lower upper hlower => ?_
  obtain ⟨level, -, hnamed⟩ := hlower
  refine absurd ?_ hnamed
  intro i hi
  rw [h] at hi
  cases hi

def pendingClasses (answer : Except Err Existing) : Option (List String) :=
  match answer with
  | .ok (.pending levels) => some (levels.map fun level => level.class_.name)
  | _ => none

theorem pending_of_classes {answer : Except Err Existing} {names : List String}
    (h : pendingClasses answer = some names) :
    ∃ pending, answer = .ok (.pending pending) ∧ (pending.map fun level => level.class_.name) = names := by
  cases answer with
  | error e => cases h
  | ok existing =>
    cases existing with
    | pool key => cases h
    | pending levels => exact ⟨levels, rfl, Option.some.inj h⟩

theorem ok_of_isSome {α : Type} {answer : Except Err α} (h : answer.toOption.isSome = true) : ∃ a, answer = .ok a := by
  cases answer with
  | error e => cases h
  | ok a => exact ⟨a, rfl⟩

theorem resolveExistingPool_predicts_first :
    Function.Injective byteChars ∧ ∃ pending,
      (resolveExistingPool byteChars "infra" siteLeaf (siteScope "lon") siteDb).1 = .ok (.pending pending) ∧
        (pending.map fun level => level.class_.name) = ["backbone", "metro"] ∧
        Provisions siteDb ((resolvePool byteChars "infra" siteLeaf (siteScope "lon")).after siteDb) pending := by
  have hclasses : pendingClasses (resolveExistingPool byteChars "infra" siteLeaf (siteScope "lon") siteDb).1 =
      some ["backbone", "metro"] := by
    decide +kernel
  have hresolved : (resolvePool byteChars "infra" siteLeaf (siteScope "lon") siteDb).1.toOption.isSome = true := by
    decide +kernel
  obtain ⟨pending, hpending, hnames⟩ := pending_of_classes hclasses
  obtain ⟨key, hkey⟩ := ok_of_isSome hresolved
  refine ⟨byteChars_injective, pending, hpending, hnames, ?_⟩
  exact ((resolveExistingPool_predicts byteChars_injective "infra" siteLeaf (siteScope "lon") siteDb).2.2 pending
    hpending key hkey).mpr (gapless_of_no_identities (by decide +kernel) siteLeaf)

/-- After a claim in `lon`, a claim in `par` is told that it lacks the pools of `backbone` and of `metro`, and provisions
only the first. -/
theorem resolveExistingPool_overstates :
    let s := serve byteChars (.createClaim (siteRequest "lon")) siteDb
    Served (serve byteChars) (fun _ _ => True) Db.empty s ∧ ∃ pending,
      (resolveExistingPool byteChars "infra" siteLeaf (siteScope "par") s).1 = .ok (.pending pending) ∧
        (pending.map fun level => level.class_.name) = ["backbone", "metro"] ∧
        (∃ key, (resolvePool byteChars "infra" siteLeaf (siteScope "par") s).1 = .ok key) ∧
        ¬ Provisions s ((resolvePool byteChars "infra" siteLeaf (siteScope "par")).after s) pending := by
  intro s
  have hclasses : pendingClasses (resolveExistingPool byteChars "infra" siteLeaf (siteScope "par") s).1 =
      some ["backbone", "metro"] := by
    decide +kernel
  obtain ⟨pending, hpending, hnames⟩ := pending_of_classes hclasses
  refine ⟨.serve _ siteDb_served trivial, pending, hpending, hnames, ok_of_isSome (by decide +kernel), ?_⟩
  intro hprovisions
  have hlength := congrArg List.length hprovisions.identities
  have hafter : ((resolvePool byteChars "infra" siteLeaf (siteScope "par")).after s).identities.length = 3 := by
    decide +kernel
  have hbefore : s.identities.length = 2 := by decide +kernel
  have htwo := congrArg List.length hnames
  simp only [List.length_map, List.length_append, List.length_cons, List.length_nil] at hlength htwo
  omega

end Ipam.Registry
