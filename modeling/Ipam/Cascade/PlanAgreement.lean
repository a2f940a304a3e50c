import Ipam.Cascade.Resolution

namespace Ipam.Cascade

open Allocation Allocator Database Transaction

structure ResolvedClass.Same (c d : ResolvedClass) : Prop where
  spec : c.spec = d.spec
  name : c.name = d.name
  project : c.project = d.project

structure CascadeLevel.Same (l l' : CascadeLevel) : Prop where
  class_ : l.class_.Same l'.class_
  tenancy : l.tenancy = l'.tenancy
  scope : l.scope = l'.scope
  scopeDigest : l.scopeDigest = l'.scopeDigest
  poolName : l.poolName = l'.poolName
  poolKey : l.poolKey = l'.poolKey

section

variable {L : Ledger} {c d : ResolvedClass}

theorem Resolves.unique {project name : String} (hc : Resolves L project name c) (hd : Resolves L project name d) :
    c.Same d := by
  -- a definition and a reference are not stored under one key
  have hdistinct {a b : ResolvedClass} (ha : Defined L a) (hname : a.project = project ∧ a.name = name)
      (hb : ∃ ref, L.objects (classStorageKey project name) = some (.class_ ref) ∧
        ref.source = some (b.project, b.name)) : False := by
    obtain ⟨ref, hstored, hsource⟩ := hb
    have ha' := ha.stored
    rw [hname.1, hname.2, hstored] at ha'
    obtain rfl : ref = a.spec := by simpa using ha'
    rw [ha.definition] at hsource
    cases hsource
  have hplace : c.project = d.project ∧ c.name = d.name := by
    rcases hc.named with hcn | hcn
    · rcases hd.named with hdn | hdn
      · exact ⟨hcn.1.trans hdn.1.symm, hcn.2.trans hdn.2.symm⟩
      · exact (hdistinct hc.defined hcn hdn).elim
    · rcases hd.named with hdn | hdn
      · exact (hdistinct hd.defined hdn hcn).elim
      · obtain ⟨ref, hstored, hsource⟩ := hcn
        obtain ⟨ref', hstored', hsource'⟩ := hdn
        rw [hstored] at hstored'
        obtain rfl : ref = ref' := by simpa using hstored'
        rw [hsource] at hsource'
        simpa using hsource'
  have hspec := hc.defined.stored
  rw [hplace.1, hplace.2, hd.defined.stored] at hspec
  obtain heq : d.spec = c.spec := by simpa using hspec
  exact ⟨heq.symm, hplace.2, hplace.1⟩

theorem Ancestors.unique {cs ds : List ResolvedClass} (hsame : c.Same d) (hc : Ancestors L c cs)
    (hd : Ancestors L d ds) : List.Forall₂ ResolvedClass.Same cs ds := by
  induction hc generalizing d ds with
  | root hroot =>
    cases hd with
    | root => exact .nil
    | up hparent =>
      obtain ⟨name, hname, -⟩ := hparent.names
      rw [← hsame.spec, hroot] at hname
      cases hname
  | @up c parent rest hparent _ ih =>
    obtain ⟨name, hname, hresolves⟩ := hparent.names
    cases hd with
    | root hroot =>
      rw [← hsame.spec, hname] at hroot
      cases hroot
    | @up _ parent' rest' hparent' hrest' =>
      obtain ⟨name', hname', hresolves'⟩ := hparent'.names
      rw [← hsame.spec, hname] at hname'
      obtain rfl := Option.some.inj hname'
      rw [← hsame.project] at hresolves'
      have hparents := hresolves.unique hresolves'
      exact .cons hparents (ih hparents hrest')

theorem planLevel_same {hash : Scope.Text → String} {consumer : String} {claimScope : Scope} {l l' : CascadeLevel}
    (hsame : c.Same d) (hl : planLevel hash consumer claimScope c = .ok l)
    (hl' : planLevel hash consumer claimScope d = .ok l') : l.Same l' := by
  obtain ⟨hspec, hname, hproject⟩ := hsame
  simp only [planLevel, ← hspec, ← hname, ← hproject] at hl hl'
  cases hroles : projectFor claimScope (poolPerRoles c.spec.poolPer).1 "poolPer" with
  | error e =>
    rw [hroles] at hl
    cases hl
  | ok projected =>
    rw [hroles] at hl hl'
    obtain rfl := Except.ok.inj hl
    obtain rfl := Except.ok.inj hl'
    exact ⟨⟨hspec, hname, hproject⟩, rfl, rfl, rfl, rfl, rfl⟩

theorem planLevels_same {hash : Scope.Text → String} {consumer : String} {claimScope : Scope}
    {cs ds : List ResolvedClass} {levels levels' : List CascadeLevel} (hsame : List.Forall₂ ResolvedClass.Same cs ds)
    (h : planLevels hash consumer cs claimScope = .ok levels)
    (h' : planLevels hash consumer ds claimScope = .ok levels') : List.Forall₂ CascadeLevel.Same levels levels' := by
  simp only [planLevels] at h h'
  split at h
  · cases h
  rename_i htenant
  rw [if_neg htenant] at h'
  cases hcs : cs.mapM (planLevel hash consumer claimScope) with
  | error e =>
    rw [hcs] at h
    cases h
  | ok planned =>
    cases hds : ds.mapM (planLevel hash consumer claimScope) with
    | error e =>
      rw [hds] at h'
      cases h'
    | ok planned' =>
      rw [hcs] at h
      rw [hds] at h'
      obtain rfl := Except.ok.inj h
      obtain rfl := Except.ok.inj h'
      apply List.rel_reverse
      have hplanned := forall₂_of_mapM hcs
      have hplanned' := forall₂_of_mapM hds
      clear hcs hds h h'
      induction hsame generalizing planned planned' with
      | nil =>
        cases hplanned
        cases hplanned'
        exact .nil
      | cons hhead _ ih =>
        cases hplanned with
        | cons hl hrest =>
          cases hplanned' with
          | cons hl' hrest' => exact .cons (planLevel_same hhead hl hl') (ih _ _ hrest hrest')

theorem ResolvedClass.Same.symm (h : c.Same d) : d.Same c :=
  ⟨h.spec.symm, h.name.symm, h.project.symm⟩

theorem ResolvedClass.Same.trans {e : ResolvedClass} (h : c.Same d) (h' : d.Same e) : c.Same e :=
  ⟨h.spec.trans h'.spec, h.name.trans h'.name, h.project.trans h'.project⟩

theorem plan_after {s : Db} (hash : Scope.Text → String) (consumer : String) (leaf : ResolvedClass)
    (claimScope : Scope) (above : List ResolvedClass → List ResolvedClass) :
    postgres.After s (do Prog.ofExcept id (planLevels hash consumer (above (← loadAncestry leaf)) claimScope))
      fun levels _ => ∃ chain, Ancestors s.ledger leaf chain ∧
        planLevels hash consumer (above chain) claimScope = .ok levels := by
  apply Database.After.bind
  refine (loadAncestry_after leaf).mono ?_
  rintro chain s₁ ⟨-, hchain⟩
  apply Database.After.ofExcept
  intro levels hlevels
  exact ⟨chain, hchain, hlevels⟩

end

theorem plans_agree (hash : Scope.Text → String) (s : Db) {c p parent : ResolvedClass} {name consumer : String}
    {claimScope : Scope} {levels levels' : List CascadeLevel} {s₀ s₁ s₂ : Db}
    (hname : c.spec.parentClassName = some name)
    (hparent : postgres.run (resolveClassIn c.project name) s = .ok (parent, s₀)) (hp : parent.Same p)
    (hblock : postgres.run (planCascade hash consumer c claimScope) s = .ok (levels, s₁))
    (hrange : postgres.run (planScopeRangeCascade hash consumer p claimScope) s = .ok (levels', s₂)) :
    List.Forall₂ CascadeLevel.Same levels levels' ∧
      (∀ level ∈ levels.head?, level.class_.spec.parentClassName = none) ∧
      ∃ level, levels.getLast? = some level ∧ level.class_.Same p := by
  have hresolves := (resolveClassIn_after c.project name _ _ hparent).2
  obtain ⟨chain, hchain, hlevels⟩ := plan_after hash consumer c claimScope id _ _ hblock
  obtain ⟨chain', hchain', hlevels'⟩ := plan_after hash consumer p claimScope (p :: ·) _ _ hrange
  have hsame : List.Forall₂ ResolvedClass.Same chain (p :: chain') := by
    cases hchain with
    | root hroot =>
      rw [hname] at hroot
      cases hroot
    | @up _ q rest hq hrest =>
      obtain ⟨name', hname', hresolves'⟩ := hq.names
      obtain rfl := Option.some.inj (hname.symm.trans hname')
      have hqp := (hresolves'.unique hresolves).trans hp
      exact .cons hqp (hrest.unique hqp hchain')
  obtain ⟨-, hroot, hempty, hnear⟩ := planCascade_after hash consumer c claimScope _ _ hblock
  refine ⟨planLevels_same hsame hlevels hlevels', hroot, ?_⟩
  cases hlast : levels.getLast? with
  | none =>
    rw [hempty (List.getLast?_eq_none_iff.mp hlast)] at hname
    cases hname
  | some level =>
    obtain ⟨name', hname', hresolves'⟩ := (hnear level hlast).names
    obtain rfl := Option.some.inj (hname.symm.trans hname')
    exact ⟨level, rfl, (hresolves'.unique hresolves).trans hp⟩

def chainClass (parentName : Option String) : IPClass :=
  ⟨false, none, some .v4, none, parentName, [], [], none, 28, none, none, none⟩

def referenceTo (project name : String) : IPClass :=
  { chainClass none with ipFamily := none, source := some (project, name) }

def metroDb : Db :=
  { Db.empty with
    objects := [(classStorageKey "infra" "backbone", .class_ (chainClass none)),
      (classStorageKey "infra" "metro", .class_ (chainClass (some "backbone"))),
      (classStorageKey "east" "local", .class_ (referenceTo "infra" "metro")),
      (classStorageKey "east" "hosts", .class_ (chainClass (some "local")))] }

def hostsOfEast : ResolvedClass :=
  ⟨chainClass (some "local"), "hosts", "east", "hosts"⟩

def metroOfInfra (localName : String) : ResolvedClass :=
  ⟨chainClass (some "backbone"), "metro", "infra", localName⟩

theorem plans_agree_metro :
    ∃ levels levels' s₁ s₂, postgres.run (planCascade (fun _ => "digest") "east" hostsOfEast []) metroDb =
        .ok (levels, s₁) ∧
      postgres.run (planScopeRangeCascade (fun _ => "digest") "east" (metroOfInfra "metro") []) metroDb =
        .ok (levels', s₂) ∧
      List.Forall₂ CascadeLevel.Same levels levels' := by
  have hblock : (postgres.run (planCascade (fun _ => "digest") "east" hostsOfEast []) metroDb).toOption.isSome = true := by
    decide +kernel
  have hrange : (postgres.run (planScopeRangeCascade (fun _ => "digest") "east" (metroOfInfra "metro") [])
      metroDb).toOption.isSome = true := by
    decide +kernel
  have hparent : postgres.run (resolveClassIn "east" "local") metroDb = .ok (metroOfInfra "local", metroDb) := by
    rfl
  have hsame : (metroOfInfra "local").Same (metroOfInfra "metro") := ⟨rfl, rfl, rfl⟩
  cases hlevels : postgres.run (planCascade (fun _ => "digest") "east" hostsOfEast []) metroDb with
  | error e =>
    rw [hlevels] at hblock
    cases hblock
  | ok result =>
    cases hlevels' : postgres.run (planScopeRangeCascade (fun _ => "digest") "east" (metroOfInfra "metro") []) metroDb with
    | error e =>
      rw [hlevels'] at hrange
      cases hrange
    | ok result' =>
      exact ⟨_, _, _, _, rfl, rfl, (plans_agree _ metroDb rfl hparent hsame hlevels hlevels').1⟩

end Ipam.Cascade
