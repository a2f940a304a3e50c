import Ipam.Allocator.LedgerSpec
import Ipam.Cascade.Discover

namespace Ipam.Cascade

open Allocation Allocator Database Transaction

structure Defined (L : Ledger) (c : ResolvedClass) : Prop where
  stored : L.objects (classStorageKey c.project c.name) = some (.class_ c.spec)
  definition : c.spec.source = none

structure Resolves (L : Ledger) (project name : String) (c : ResolvedClass) : Prop where
  defined : Defined L c
  named : c.project = project ∧ c.name = name ∨
    ∃ ref, L.objects (classStorageKey project name) = some (.class_ ref) ∧ ref.source = some (c.project, c.name)

structure ParentOf (L : Ledger) (child parent : ResolvedClass) : Prop where
  names : ∃ name, child.spec.parentClassName = some name ∧ Resolves L child.project name parent
  family : parent.spec.ipFamily = child.spec.ipFamily

section

variable {α : Type} {s : Db}

theorem getObject_after {k : Key} {f : Option Object → Tx α} {Q : α → Db → Prop}
    (h : postgres.After s (f (s.object k)) Q) : postgres.After s (send (.getObject k) >>= f) Q := by
  apply Database.After.step
  intro o es hexec
  obtain ⟨rfl, rfl⟩ := Prod.mk.inj (Except.ok.inj hexec)
  exact h

theorem select_after {f : Db → Tx α} {Q : α → Db → Prop} (h : postgres.After s (f s) Q) :
    postgres.After s (send .select >>= f) Q := by
  apply Database.After.step
  intro o es hexec
  obtain ⟨rfl, rfl⟩ := Prod.mk.inj (Except.ok.inj hexec)
  exact h

theorem object_of_asClass {k : Key} {c : IPClass} (h : asClass (s.object k) = some c) :
    s.ledger.objects k = some (.class_ c) := by
  cases ho : s.object k with
  | none =>
    rw [ho] at h
    cases h
  | some o =>
    rw [ho] at h
    cases o with
    | class_ c' =>
      obtain rfl := Option.some.inj h
      simp only [Db.ledger, ho]
      rfl
    | pool | claim | allocation => cases h

theorem loadClassIn_after (project name : String) :
    postgres.After s (loadClassIn project name) fun c s' =>
      s' = s ∧ s.ledger.objects (classStorageKey project name) = some (.class_ c) := by
  apply getObject_after
  apply Database.After.ofOption
  intro c hc
  exact ⟨rfl, object_of_asClass hc⟩

theorem resolveClassIn_after (project name : String) :
    postgres.After s (resolveClassIn project name) fun c s' => s' = s ∧ Resolves s.ledger project name c := by
  apply Database.After.bind
  refine (loadClassIn_after project name).mono ?_
  rintro found s₁ ⟨hs₁, hfound⟩
  rw [hs₁]
  cases hsource : found.source with
  | none => exact .pure ⟨rfl, ⟨hfound, hsource⟩, .inl ⟨rfl, rfl⟩⟩
  | some src =>
    apply Database.After.bind
    refine (loadClassIn_after src.1 src.2).mono ?_
    rintro target s₂ ⟨hs₂, htarget⟩
    rw [hs₂]
    cases hchained : target.source with
    | some _ => exact .throw
    | none => exact .pure ⟨rfl, ⟨htarget, hchained⟩, .inr ⟨found, hfound, hsource⟩⟩

theorem firstOfFamily_after (project : String) (family : Family) (names : List String) :
    postgres.After s (firstOfFamily project family names) fun c s' =>
      s' = s ∧ Defined s.ledger c ∧ c.spec.ipFamily = some family := by
  induction names with
  | nil => exact .throw
  | cons name rest ih =>
    apply Database.After.bind
    refine (resolveClassIn_after project name).mono ?_
    rintro c s₁ ⟨hs₁, hc⟩
    rw [hs₁]
    split
    · rename_i hfamily
      exact .pure ⟨rfl, hc.defined, hfamily⟩
    · exact ih

theorem resolveClass_after (project className : String) (family : Option Family) :
    postgres.After s (resolveClass project className family) fun c s' => s' = s ∧ Defined s.ledger c := by
  simp only [resolveClass]
  split
  · simp only [loadClass]
    split
    · exact .throw
    · exact (resolveClassIn_after project className).mono fun _ _ h => ⟨h.1, h.2.defined⟩
  · cases family with
    | none => exact .throw
    | some family =>
      simp only [loadDefaultClass]
      split
      · exact .throw
      · apply select_after
        exact (firstOfFamily_after project family _).mono fun _ _ h => ⟨h.1, h.2.1⟩

inductive Ancestors (L : Ledger) : ResolvedClass → List ResolvedClass → Prop where
  | root {c : ResolvedClass} (h : c.spec.parentClassName = none) : Ancestors L c []
  | up {c parent : ResolvedClass} {rest : List ResolvedClass} (h : ParentOf L c parent)
      (hrest : Ancestors L parent rest) : Ancestors L c (parent :: rest)

theorem ancestryFrom_after {leaf : ResolvedClass} (turns : ℕ) {current : ResolvedClass} (seen : List Key)
    (hfamily : current.spec.ipFamily = leaf.spec.ipFamily) :
    postgres.After s (ancestryFrom leaf turns current seen) fun chain s' =>
      s' = s ∧ Ancestors s.ledger current chain := by
  induction turns generalizing current seen with
  | zero => exact .throw
  | succ turns ih =>
    simp only [ancestryFrom]
    cases hparent : current.spec.parentClassName with
    | none => exact .pure ⟨rfl, .root hparent⟩
    | some name =>
      apply Database.After.bind
      refine (resolveClassIn_after current.project name).mono ?_
      rintro parent s₁ ⟨hs₁, hnames⟩
      rw [hs₁]
      split
      · exact .throw
      split
      · exact .throw
      rename_i hsame
      have hfam : parent.spec.ipFamily = leaf.spec.ipFamily := not_not.mp hsame
      apply Database.After.bind
      refine (ih _ hfam).mono ?_
      rintro rest s₂ ⟨hs₂, hrest⟩
      rw [hs₂]
      exact .pure ⟨rfl, .up ⟨⟨name, hparent, hnames⟩, hfam.trans hfamily.symm⟩ hrest⟩

theorem loadAncestry_after (leaf : ResolvedClass) :
    postgres.After s (loadAncestry leaf) fun chain s' => s' = s ∧ Ancestors s.ledger leaf chain :=
  ancestryFrom_after _ _ rfl

structure Offers (L : Ledger) (c : ResolvedClass) (claimScope : Scope) (k : Key) (pool : IPPool) : Prop where
  stored : L.objects k = some (.pool pool)
  project : ∃ namespace_ name, k = .object c.project .ippools namespace_ name
  className : c.name ∈ pool.classNames
  family : effectivePoolFamily pool = c.spec.ipFamily
  serves : poolServesScope pool claimScope = true

def candidatePools (class_ : ResolvedClass) (claimScope : Scope) (s : Db) : List (Key × IPPool) :=
  (offeringPools class_ s).filter fun e => poolServesScope e.2 claimScope

theorem mem_foldl_pick {β : Type} {f : β → β → β} (hf : ∀ a b, f a b = a ∨ f a b = b) (first : β) (rest : List β) :
    rest.foldl f first ∈ first :: rest := by
  induction rest generalizing first with
  | nil => exact List.mem_singleton_self first
  | cons b rest ih =>
    have hmem := ih (f first b)
    simp only [List.foldl_cons, List.mem_cons] at hmem ⊢
    cases hf first b with
    | inl h =>
      rw [h] at hmem ⊢
      tauto
    | inr h =>
      rw [h] at hmem ⊢
      tauto

theorem mem_of_bestPool {strategy : Option PoolSelection} {candidates : List (Key × IPPool)} {k : Key}
    (h : bestPool strategy candidates = some k) : ∃ pool, (k, pool) ∈ candidates := by
  cases candidates with
  | nil => cases h
  | cons first rest =>
    obtain rfl := Option.some.inj h
    refine ⟨_, mem_foldl_pick (fun best candidate => ?_) first rest⟩
    split
    · exact .inr rfl
    · exact .inl rfl

theorem object_of_mem {k : Key} {o : Object} {t : List (Key × Object)} (hnodup : (t.map Prod.fst).Nodup)
    (h : (k, o) ∈ t) : t.lookup k = some o := by
  induction t with
  | nil => simp at h
  | cons e t ih =>
    obtain ⟨k', o'⟩ := e
    rw [List.map_cons, List.nodup_cons] at hnodup
    cases List.mem_cons.mp h with
    | inl heq =>
      obtain ⟨rfl, rfl⟩ := Prod.mk.inj heq
      simp
    | inr hmem =>
      have hne : k ≠ k' := by
        rintro rfl
        exact hnodup.1 (List.mem_map.mpr ⟨_, hmem, rfl⟩)
      rw [List.lookup_cons, beq_false_of_ne hne]
      exact ih hnodup.2 hmem

theorem offeringPools_stored {c : ResolvedClass} {k : Key} {pool : IPPool} (hs : s.Tabled)
    (h : (k, pool) ∈ offeringPools c s) :
    s.object k = some (.pool pool) ∧ (∃ ns name, k = .object c.project .ippools ns name) ∧ c.name ∈ pool.classNames ∧
      effectivePoolFamily pool = c.spec.ipFamily := by
  rw [offeringPools, List.mem_insertionSort, List.mem_filterMap] at h
  obtain ⟨⟨k', o⟩, hmem, hsome⟩ := h
  split at hsome
  · rename_i p ns name pool' heq
    obtain ⟨rfl, rfl⟩ := Prod.mk.inj heq
    split at hsome
    · rename_i hoffers
      obtain ⟨rfl, rfl⟩ := Prod.mk.inj (Option.some.inj hsome)
      obtain ⟨rfl, hname, hfamily⟩ := hoffers
      exact ⟨object_of_mem hs hmem, ⟨ns, name, rfl⟩, hname, hfamily⟩
    · cases hsome
  · cases hsome

theorem offeringPools_offers {c : ResolvedClass} {claimScope : Scope} {k : Key} {pool : IPPool} (hs : s.Tabled)
    (h : (k, pool) ∈ offeringPools c s) (hserves : poolServesScope pool claimScope = true) :
    Offers s.ledger c claimScope k pool.core := by
  obtain ⟨hobject, hkey, hname, hfamily⟩ := offeringPools_stored hs h
  refine ⟨?_, hkey, hname, hfamily, hserves⟩
  simp only [Db.ledger, hobject]
  rfl

theorem chainRoot_after (leaf : ResolvedClass) :
    postgres.After s (chainRoot leaf) fun root s' =>
      s' = s ∧ ∃ chain, Ancestors s.ledger leaf chain ∧ root = chain.getLastD leaf := by
  apply Database.After.bind
  refine (loadAncestry_after leaf).mono ?_
  rintro chain s₁ ⟨hs₁, hchain⟩
  rw [hs₁]
  exact .pure ⟨rfl, chain, hchain, rfl⟩

theorem discoverPool_after (hs : s.Tabled) {c : ResolvedClass} (hroot : c.spec.parentClassName = none)
    (claimScope : Scope) :
    postgres.After s (discoverPool c claimScope) fun k _ =>
      bestPool c.spec.strategy (candidatePools c claimScope s) = some k ∧ ∃ pool, Offers s.ledger c claimScope k pool := by
  apply Database.After.bind
  refine (chainRoot_after c).mono ?_
  rintro root s₁ ⟨hs₁, chain, hchain, rfl⟩
  rw [hs₁]
  have hnil : chain = [] := by
    cases hchain with
    | root _ => rfl
    | up h _ =>
      obtain ⟨name, hname, -⟩ := h.names
      rw [hroot] at hname
      cases hname
  subst hnil
  apply select_after
  apply Database.After.ofOption
  intro k hk
  obtain ⟨pool, hpool⟩ := mem_of_bestPool hk
  obtain ⟨hmem, hserves⟩ := List.mem_filter.mp hpool
  exact ⟨hk, _, offeringPools_offers hs hmem hserves⟩

structure Levels (hash : Scope.Text → String) (L : Ledger) (consumer : String) (claimScope : Scope)
    (levels : List CascadeLevel) : Prop where
  planned : ∀ level ∈ levels, planLevel hash consumer claimScope level.class_ = .ok level
  defined : ∀ level ∈ levels, Defined L level.class_
  chain : levels.IsChain fun upper lower => ParentOf L lower.class_ upper.class_

theorem Ancestors.facts {L : Ledger} {c : ResolvedClass} {chain : List ResolvedClass} (h : Ancestors L c chain) :
    (∀ a ∈ chain, Defined L a) ∧ (c :: chain).IsChain (ParentOf L) ∧
      ∀ a ∈ (c :: chain).getLast?, a.spec.parentClassName = none := by
  induction h with
  | root hroot => exact ⟨by simp, by simp, by simpa using hroot⟩
  | @up c parent rest hparent _ ih =>
    obtain ⟨hdefined, hchain, hroot⟩ := ih
    refine ⟨?_, ?_, ?_⟩
    · intro a ha
      cases List.mem_cons.mp ha with
      | inl heq =>
        obtain ⟨name, -, hnames⟩ := hparent.names
        exact heq ▸ hnames.defined
      | inr ha => exact hdefined a ha
    · exact List.isChain_cons_cons.mpr ⟨hparent, hchain⟩
    · rwa [List.getLast?_cons_cons]

theorem planLevel_class {hash : Scope.Text → String} {consumer : String} {claimScope : Scope} {c : ResolvedClass}
    {level : CascadeLevel} (h : planLevel hash consumer claimScope c = .ok level) :
    level.class_ = c ∧ level.tenancy.owner = c.project ∧
      level.scopeDigest = poolDigest hash level.tenancy level.scope ∧
      level.poolKey = poolStorageKey c.project level.poolName := by
  simp only [planLevel] at h
  cases hproject : projectFor claimScope (poolPerRoles c.spec.poolPer).1 "poolPer" with
  | error e =>
    rw [hproject] at h
    cases h
  | ok projected =>
    rw [hproject] at h
    obtain rfl := Except.ok.inj h
    exact ⟨rfl, rfl, rfl, rfl⟩

theorem forall₂_of_mapM {β γ ε : Type} {f : β → Except ε γ} {bs : List β} {cs : List γ} (h : bs.mapM f = .ok cs) :
    List.Forall₂ (fun b c => f b = .ok c) bs cs := by
  induction bs generalizing cs with
  | nil =>
    obtain rfl := Except.ok.inj h
    exact .nil
  | cons b bs ih =>
    rw [List.mapM_cons] at h
    cases hb : f b with
    | error e =>
      rw [hb] at h
      cases h
    | ok c =>
      rw [hb] at h
      cases hbs : bs.mapM f with
      | error e =>
        rw [hbs] at h
        cases h
      | ok rest =>
        rw [hbs] at h
        obtain rfl := Except.ok.inj h
        exact .cons hb (ih hbs)

theorem planLevels_levels {hash : Scope.Text → String} {L : Ledger} {consumer : String} {claimScope : Scope}
    {chain : List ResolvedClass} {levels : List CascadeLevel} (hdefined : ∀ c ∈ chain, Defined L c)
    (hchain : chain.IsChain (ParentOf L)) (hroot : ∀ c ∈ chain.getLast?, c.spec.parentClassName = none)
    (h : planLevels hash consumer chain claimScope = .ok levels) :
    Levels hash L consumer claimScope levels ∧ levels.map CascadeLevel.class_ = chain.reverse ∧
      ∀ level ∈ levels.head?, level.class_.spec.parentClassName = none := by
  simp only [planLevels] at h
  split at h
  · cases h
  cases hmap : chain.mapM (planLevel hash consumer claimScope) with
  | error e =>
    rw [hmap] at h
    cases h
  | ok planned =>
    rw [hmap] at h
    obtain rfl := Except.ok.inj h
    have hall := forall₂_of_mapM hmap
    have hclasses : planned.map CascadeLevel.class_ = chain := by
      clear hmap hdefined hchain hroot h
      induction hall with
      | nil => rfl
      | cons hb _ ih => rw [List.map_cons, (planLevel_class hb).1, ih]
    have hplanned : ∀ level ∈ planned, planLevel hash consumer claimScope level.class_ = .ok level := by
      clear hmap hdefined hchain hroot h hclasses
      induction hall with
      | nil => simp
      | cons hb _ ih =>
        intro level hlevel
        cases List.mem_cons.mp hlevel with
        | inl heq =>
          rw [heq, (planLevel_class hb).1]
          exact hb
        | inr hlevel => exact ih level hlevel
    have hmem : ∀ level ∈ planned, level.class_ ∈ chain := fun level hlevel => hclasses ▸ List.mem_map_of_mem hlevel
    refine ⟨⟨?_, ?_, ?_⟩, by rw [List.map_reverse, hclasses], ?_⟩
    · exact fun level hlevel => hplanned level (List.mem_reverse.mp hlevel)
    · exact fun level hlevel => hdefined _ (hmem level (List.mem_reverse.mp hlevel))
    · rw [List.isChain_reverse]
      rw [← hclasses, List.isChain_map] at hchain
      exact hchain
    · intro level hlevel
      rw [List.head?_reverse] at hlevel
      apply hroot
      rw [← hclasses, List.getLast?_map]
      exact Option.mem_map_of_mem _ hlevel

theorem planCascade_after (hash : Scope.Text → String) (consumer : String) (leaf : ResolvedClass) (claimScope : Scope) :
    postgres.After s (planCascade hash consumer leaf claimScope) fun levels _ =>
      Levels hash s.ledger consumer claimScope levels ∧
        (∀ level ∈ levels.head?, level.class_.spec.parentClassName = none) ∧
        (levels = [] → leaf.spec.parentClassName = none) ∧
        ∀ level ∈ levels.getLast?, ParentOf s.ledger leaf level.class_ := by
  apply Database.After.bind
  refine (loadAncestry_after leaf).mono ?_
  rintro chain s₁ ⟨-, hchain⟩
  apply Database.After.ofExcept
  intro levels hlevels
  obtain ⟨hdefined, hlinked, hroot⟩ := hchain.facts
  have hroot' : ∀ c ∈ chain.getLast?, c.spec.parentClassName = none := by
    intro c hc
    cases chain with
    | nil => simp at hc
    | cons a rest => exact hroot c (by rwa [List.getLast?_cons_cons])
  obtain ⟨hplan, hclasses, hhead⟩ := planLevels_levels hdefined hlinked.tail hroot' hlevels
  refine ⟨hplan, hhead, ?_, ?_⟩
  · rintro rfl
    have hnil : chain = [] := by simpa using hclasses.symm
    rw [hnil] at hroot
    simpa using hroot
  · intro level hlevel
    have hnear : level.class_ ∈ chain.head? := by
      rw [← List.getLast?_reverse, ← hclasses, List.getLast?_map]
      exact Option.mem_map_of_mem _ hlevel
    cases chain with
    | nil => simp at hnear
    | cons a rest =>
      obtain rfl : a = level.class_ := by simpa using hnear
      exact (List.isChain_cons_cons.mp hlinked).1

theorem planScopeRangeCascade_after (hash : Scope.Text → String) (consumer : String) {leaf : ResolvedClass}
    (hleaf : Defined s.ledger leaf) (claimScope : Scope) :
    postgres.After s (planScopeRangeCascade hash consumer leaf claimScope) fun levels _ =>
      Levels hash s.ledger consumer claimScope levels ∧
        (∀ level ∈ levels.head?, level.class_.spec.parentClassName = none) ∧
        ∀ level ∈ levels.getLast?, level.class_ = leaf := by
  apply Database.After.bind
  refine (loadAncestry_after leaf).mono ?_
  rintro chain s₁ ⟨-, hchain⟩
  apply Database.After.ofExcept
  intro levels hlevels
  obtain ⟨hdefined, hlinked, hroot⟩ := hchain.facts
  have hall : ∀ c ∈ leaf :: chain, Defined s.ledger c := by
    intro c hc
    cases List.mem_cons.mp hc with
    | inl heq => exact heq ▸ hleaf
    | inr hc => exact hdefined c hc
  obtain ⟨hplan, hclasses, hhead⟩ := planLevels_levels hall hlinked hroot hlevels
  refine ⟨hplan, hhead, ?_⟩
  intro level hlevel
  have hnear : level.class_ ∈ (leaf :: chain).head? := by
    rw [← List.getLast?_reverse, ← hclasses, List.getLast?_map]
    exact Option.mem_map_of_mem _ hlevel
  simpa [eq_comm] using hnear

end

end Ipam.Cascade
