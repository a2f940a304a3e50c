import Ipam.Registry.Ranges

namespace Ipam.Registry

open Allocation Allocator Cascade Database Transaction

def PoolRequest.FamilyStated (req : PoolRequest) : Prop :=
  ∀ cidr p, req.pool.cidr = some cidr → cidr.string = some p → req.pool.ipFamily = some p.family

def ClassRequest.KeepsFamily (hash : Scope.Text → String) (req : ClassRequest) (L : Ledger) : Prop :=
  req.class_.source = none → ∀ i ∈ L.identities, i.className = req.name → ∀ tenancy scope, tenancy.owner = req.project →
    i.scopeDigest = poolDigest hash tenancy scope → ∀ pool, L.objects i.poolKey = some (.pool pool) →
    pool.ipFamily = req.class_.ipFamily

def Action.StatesFamily (hash : Scope.Text → String) (L : Ledger) : Action → Prop
  | .createPool req => req.FamilyStated
  | .updatePool req true => req.FamilyStated
  | .createClass req => req.KeepsFamily hash L
  | .updateClass req true => req.KeepsFamily hash L
  | _ => True

structure ProvidedBy (hash : Scope.Text → String) (L : Ledger) (i : Identity) (tenancy : PoolTenancy) (scope : Scope)
    (pool : IPPool) (p : Cidr) : Prop where
  digest : i.scopeDigest = poolDigest hash tenancy scope
  key : ∃ name, i.poolKey = poolStorageKey tenancy.owner name
  stored : L.objects i.poolKey = some (.pool pool)
  range : pool.allocatedCIDR = some p
  child : pool.parentPoolRef ≠ none
  unlimited : pool.minPrefixLength = 0 ∧ pool.maxPrefixLength = 0
  stated : pool.ipFamily ≠ none
  class_ : ∀ c, L.objects (classStorageKey tenancy.owner i.className) = some (.class_ c) → c.source = none →
    pool.ipFamily = c.ipFamily
  carve : ∀ r ∈ L.rows, r.allocationKey = i.poolKey → r.cidr = p

structure Families (hash : Scope.Text → String) (L : Ledger) : Prop where
  pools : ∀ k pool p, L.objects k = some (.pool pool) → pool.allocatedCIDR = some p →
    pool.ipFamily = none ∨ pool.ipFamily = some p.family
  classes : ∀ k c, L.objects k = some (.class_ c) → c.source = none → c.ipFamily ≠ none
  identities : ∀ i ∈ L.identities, ∃ tenancy scope pool p, ProvidedBy hash L i tenancy scope pool p

theorem poolDigest_inj {hash : Scope.Text → String} (hhash : Function.Injective hash) {t t' : PoolTenancy}
    {s s' : Scope} (h : poolDigest hash t s = poolDigest hash t' s') : t = t' := by
  obtain ⟨htenancy, -⟩ := (Scope.canonicalPool_inj _ _ _ _).mp (hhash h)
  obtain ⟨howner, hconsumer⟩ := Scope.PoolTenancy.mk.inj htenancy
  cases t
  cases t'
  simp only [PoolTenancy.mk.injEq]
  exact ⟨Scope.text_injective howner, Scope.text_injective hconsumer⟩

theorem familyOf_net (p : Cidr) : familyOf p.net = p.family :=
  congrArg Prod.fst p.shortest_ip

section

variable {hash : Scope.Text → String} {L L' mid carved : Ledger} {k : Key} {pool : IPPool} {p : Cidr}

theorem effectivePoolFamily_eq (hrange : pool.allocatedCIDR = some p)
    (h : pool.ipFamily = none ∨ pool.ipFamily = some p.family) : effectivePoolFamily pool = some p.family := by
  cases h with
  | inl hnone => simp [effectivePoolFamily, hnone, IPPool.range, hrange, familyOf_net]
  | inr hsome => simp [effectivePoolFamily, hsome]

theorem effectiveIPFamily_eq (hrange : pool.allocatedCIDR = some p)
    (h : pool.ipFamily = none ∨ pool.ipFamily = some p.family) : effectiveIPFamily pool = some p.family := by
  cases h with
  | inl hnone => simp [effectiveIPFamily, hnone, hrange, familyOf_net]
  | inr hsome => simp [effectiveIPFamily, hsome]

theorem Families.provided (hhash : Function.Injective hash) (h : Families hash L) {level : CascadeLevel}
    {consumer : String} {claimScope : Scope} (hplan : planLevel hash consumer claimScope level.class_ = .ok level)
    (hdefined : Defined L level.class_) (hidentity : level.identity k ∈ L.identities) :
    ∃ tenancy scope pool p, ProvidedBy hash L (level.identity k) tenancy scope pool p ∧
      level.class_.spec.ipFamily = some p.family ∧ pool.ipFamily = some p.family := by
  obtain ⟨tenancy, scope, pool, p, hprovided⟩ := h.identities _ hidentity
  obtain ⟨-, howner, hdigest, -⟩ := planLevel_class hplan
  have htenancy : tenancy = level.tenancy := poolDigest_inj hhash (hprovided.digest.symm.trans hdigest)
  have hstored := hdefined.stored
  rw [← howner, ← htenancy] at hstored
  have hclass : pool.ipFamily = level.class_.spec.ipFamily := hprovided.class_ _ hstored hdefined.definition
  have hfamily := (h.pools _ _ _ hprovided.stored hprovided.range).resolve_left hprovided.stated
  exact ⟨tenancy, scope, pool, p, hprovided, hclass ▸ hfamily, hfamily⟩

theorem Families.draws (hhash : Function.Injective hash) (h : Families hash L) {consumer : String} {claimScope : Scope}
    {c : ResolvedClass} (hdraws : Draws hash L consumer claimScope c k) (hpool : L.objects k = some (.pool pool))
    (hrange : pool.allocatedCIDR = some p) : c.spec.ipFamily = some p.family := by
  cases hdraws with
  | @offered pool' _ hoffers =>
    obtain rfl : pool' = pool := by
      have := hoffers.stored.symm.trans hpool
      simpa using this
    rw [← hoffers.family]
    exact effectivePoolFamily_eq hrange (h.pools k pool' p hpool hrange)
  | provisioned hparent hplan hdefined hidentity =>
    obtain ⟨tenancy, scope, pool', p', hprovided, hclass, -⟩ := h.provided hhash hplan hdefined hidentity
    have hsame := hprovided.stored.symm.trans hpool
    obtain rfl : pool' = pool := by simpa using hsame
    obtain rfl : p' = p := Option.some.inj (hprovided.range.symm.trans hrange)
    rw [← hparent.family]
    exact hclass

theorem ProvidedBy.mono {i : Identity} {tenancy : PoolTenancy} {scope : Scope}
    (h : ProvidedBy hash L i tenancy scope pool p) (hstored : L'.objects i.poolKey = some (.pool pool))
    (hclass : ∀ c, L'.objects (classStorageKey tenancy.owner i.className) = some (.class_ c) → c.source = none →
      pool.ipFamily = c.ipFamily)
    (hrows : ∀ r ∈ L'.rows, r.allocationKey = i.poolKey → r.cidr = p) : ProvidedBy hash L' i tenancy scope pool p :=
  ⟨h.digest, h.key, hstored, h.range, h.child, h.unlimited, h.stated, hclass, hrows⟩

theorem ProvidedBy.not_edits {i : Identity} {tenancy : PoolTenancy} {scope : Scope}
    (h : ProvidedBy hash L i tenancy scope pool p) (pool' : IPPool) : ¬ Edits pool pool' := by
  intro hedit
  obtain ⟨parent, hparent⟩ := Option.ne_none_iff_exists'.mp h.child
  have hvalid := hedit.valid
  simp only [validateIPPool, hedit.parentPoolRef, hparent, hedit.ipFamily, Bool.and_eq_true,
    Option.isNone_iff_eq_none] at hvalid
  exact h.stated hvalid.1.1.1.1.1.2

theorem Families.shrinks (h : Families hash L) (hs : Shrinks L L') (hc : Consistent L') : Families hash L' := by
  refine ⟨?_, ?_, ?_⟩
  · intro k pool' p hpool' hp
    obtain ⟨pool, hpool, rfl | hedit⟩ := hs.pools k pool' hpool'
    · exact h.pools k pool' p hpool hp
    · rw [hedit.ipFamily]
      exact h.pools k pool p hpool (hedit.allocatedCIDR ▸ hp)
  · intro k c' hc' hsource
    obtain ⟨c, hc, rfl | hredefines⟩ := hs.classes k c' hc'
    · exact h.classes k c' hc hsource
    · rw [hredefines.ipFamily]
      exact h.classes k c hc (hredefines.source ▸ hsource)
  · intro i hi
    obtain ⟨tenancy, scope, pool, p, hprovided⟩ := h.identities i (hs.identities i hi)
    obtain ⟨pool', hpool'⟩ := hc.identities i hi
    obtain ⟨pool₀, hpool₀, hcase⟩ := hs.pools i.poolKey pool' hpool'
    have hsame := hpool₀.symm.trans hprovided.stored
    obtain rfl : pool₀ = pool := by simpa using hsame
    refine ⟨tenancy, scope, pool₀, p, hprovided.mono ?_ ?_ ?_⟩
    · rw [hpool', hcase.resolve_right (hprovided.not_edits pool')]
    · intro c' hc' hsource
      obtain ⟨c, hc, rfl | hredefines⟩ := hs.classes _ c' hc'
      · exact hprovided.class_ c' hc hsource
      · rw [hredefines.ipFamily]
        exact hprovided.class_ c hc (hredefines.source ▸ hsource)
    · intro r hr hkey
      obtain ⟨o, ho, heq⟩ := hs.rows r hr
      have hallocation : o.allocationKey = r.allocationKey := (congrArg Row.allocationKey heq :)
      have hcidr : o.cidr = r.cidr := (congrArg Row.cidr heq :)
      rw [← hcidr]
      exact hprovided.carve o ho (hallocation.trans hkey)

def AddsRows (L L' : Ledger) : Prop :=
  ∀ r ∈ L'.rows, r ∈ L.rows ∨ ∀ i ∈ L.identities, r.allocationKey ≠ i.poolKey

theorem ProvidedBy.carve_of_adds {i : Identity} {tenancy : PoolTenancy} {scope : Scope}
    (hprovided : ProvidedBy hash L i tenancy scope pool p) (hrows : AddsRows L L') (hi : i ∈ L.identities) :
    ∀ r ∈ L'.rows, r.allocationKey = i.poolKey → r.cidr = p := by
  intro r hr hkey
  cases hrows r hr with
  | inl hold => exact hprovided.carve r hold hkey
  | inr hnew => exact absurd hkey (hnew i hi)

theorem Families.add_rows (h : Families hash L) (hobjects : L'.objects = L.objects)
    (hids : L'.identities = L.identities) (hrows : AddsRows L L') : Families hash L' := by
  refine ⟨by rw [hobjects]; exact h.pools, by rw [hobjects]; exact h.classes, ?_⟩
  intro i hi
  rw [hids] at hi
  obtain ⟨tenancy, scope, pool, p, hprovided⟩ := h.identities i hi
  refine ⟨tenancy, scope, pool, p, hprovided.mono (by rw [hobjects]; exact hprovided.stored) ?_
    (hprovided.carve_of_adds hrows hi)⟩
  rw [hobjects]
  exact hprovided.class_

theorem Families.add_pool (h : Families hash L) (habsent : L.objects k = none)
    (hobjects : L'.objects = (L.put k (.pool pool)).objects)
    (hfamily : ∀ p, pool.allocatedCIDR = some p → pool.ipFamily = none ∨ pool.ipFamily = some p.family)
    (hids : ∀ i ∈ L'.identities, i ∈ L.identities ∨ ∃ tenancy scope pool p, ProvidedBy hash L' i tenancy scope pool p)
    (hrows : AddsRows L L') : Families hash L' := by
  refine ⟨?_, ?_, ?_⟩
  · intro k' pool' p hpool' hp
    rw [hobjects] at hpool'
    obtain ⟨-, hnew⟩ | ⟨-, hold⟩ := Ledger.put_objects.mp hpool'
    · obtain rfl := Object.pool.inj hnew
      exact hfamily p hp
    · exact h.pools k' pool' p hold hp
  · intro k' c hc
    rw [hobjects] at hc
    obtain ⟨-, hnew⟩ | ⟨-, hold⟩ := Ledger.put_objects.mp hc
    · cases hnew
    · exact h.classes k' c hold
  · intro i hi
    refine (hids i hi).elim ?_ id
    intro hold
    obtain ⟨tenancy, scope, pool', p, hprovided⟩ := h.identities i hold
    refine ⟨tenancy, scope, pool', p, hprovided.mono ?_ ?_ (hprovided.carve_of_adds hrows hold)⟩
    · rw [hobjects]
      refine Ledger.put_objects.mpr (.inr ⟨?_, hprovided.stored⟩)
      intro heq
      have hstored := hprovided.stored
      rw [heq, habsent] at hstored
      cases hstored
    · intro c hc
      rw [hobjects] at hc
      obtain ⟨-, hnew⟩ | ⟨-, hold⟩ := Ledger.put_objects.mp hc
      · cases hnew
      · exact hprovided.class_ c hold

theorem Families.add_class (h : Families hash L) {req : ClassRequest}
    (hvalid : validateIPClass req.name req.class_ = true) (habsent : L.objects req.key = none)
    (hkeeps : req.KeepsFamily hash L) : Families hash (L.put req.key (.class_ req.class_)) := by
  refine ⟨?_, ?_, ?_⟩
  · intro k pool p hpool
    obtain ⟨-, hnew⟩ | ⟨-, hold⟩ := Ledger.put_objects.mp hpool
    · cases hnew
    · exact h.pools k pool p hold
  · intro k c hc hsource
    obtain ⟨-, hnew⟩ | ⟨-, hold⟩ := Ledger.put_objects.mp hc
    · obtain rfl := Object.class_.inj hnew
      simp only [validateIPClass, hsource, validateDefinition, Bool.and_eq_true] at hvalid
      exact Option.isSome_iff_ne_none.mp hvalid.1.1.1.1.1
    · exact h.classes k c hold hsource
  · intro i hi
    obtain ⟨tenancy, scope, pool, p, hprovided⟩ := h.identities i hi
    refine ⟨tenancy, scope, pool, p, hprovided.mono ?_ ?_ hprovided.carve⟩
    · refine Ledger.put_objects.mpr (.inr ⟨?_, hprovided.stored⟩)
      intro heq
      have hstored := hprovided.stored
      rw [heq, habsent] at hstored
      cases hstored
    · intro c hc hsource
      obtain ⟨hkey, hnew⟩ | ⟨-, hold⟩ := Ledger.put_objects.mp hc
      · obtain rfl := Object.class_.inj hnew
        obtain ⟨howner, hname⟩ : tenancy.owner = req.project ∧ i.className = req.name := by
          simpa [ClassRequest.key, classStorageKey] using hkey
        exact hkeeps hsource i hi hname tenancy scope howner hprovided.digest pool hprovided.stored
      · exact hprovided.class_ c hold hsource

theorem Families.reservation_ne (h : Families hash L) {ed : String} {k : Key} {c : Cidr} {i : Identity}
    (hi : i ∈ L.identities) : (reservationRow ed k c).allocationKey ≠ i.poolKey := by
  obtain ⟨tenancy, scope, pool, p, hprovided⟩ := h.identities i hi
  obtain ⟨name, hname⟩ := hprovided.key
  rw [hname]
  exact fun heq => nomatch heq

theorem Families.absent_ne (h : Families hash L) (hk : L.objects k = none) {i : Identity} (hi : i ∈ L.identities) :
    k ≠ i.poolKey := by
  rintro rfl
  obtain ⟨tenancy, scope, pool, p, hprovided⟩ := h.identities i hi
  rw [hprovided.stored] at hk
  cases hk

theorem Families.adds_taken (h : Families hash L) {ed digest : String} {n : ℤ} {row : Cidr → Row} {block : IPNet}
    {b : Cidr} (htaken : Taken ed k digest n row L mid carved pool block b)
    (hrow : ∀ i ∈ L.identities, (row b).allocationKey ≠ i.poolKey) : AddsRows L carved := by
  intro r hr
  obtain hold | hreserved | rfl := htaken.mem hr
  · exact .inl hold
  · exact .inr fun i hi => hreserved ▸ h.reservation_ne hi
  · exact .inr hrow

theorem Families.provision (hhash : Function.Injective hash) (hr : Ranged L) (h : Families hash L)
    {req : ClaimRequest} {level : CascadeLevel} {source : Key} {n : ℤ} {block : IPNet} {b : Cidr}
    (hplan : planLevel hash req.tenant req.claim.scope level.class_ = .ok level) (hdefined : Defined L level.class_)
    (hdraws : Draws hash L req.tenant req.claim.scope level.class_ source)
    (hprov : Provisioned (emptySpace hash) level source n L mid carved L' pool block b) : Families hash L' := by
  obtain ⟨hobjects, hids, habsent⟩ := hprov.objects
  have hnamed : Ranged (L.name (level.identity level.poolKey)) := ⟨hr.derived, hr.unmapped, hr.rows⟩
  obtain ⟨p, hat, hm, -, -, hwithin, -⟩ := hnamed.found hprov.taken
  have hfamily : level.class_.spec.ipFamily = some b.family := by
    rw [((Cidr.within_iff b p).mp hwithin).1]
    exact h.draws hhash hdraws hat.stored hat.range
  obtain ⟨-, howner, hdigest, hkey⟩ := planLevel_class hplan
  have hstored : L'.objects level.poolKey =
      some (.pool (newProvisionedPool level (keyName source) n block).core) := by
    rw [hobjects]
    exact Function.update_self _ _ _
  apply h.add_pool habsent hobjects
  · intro p' hp'
    obtain rfl : b = p' := Option.some.inj (hprov.taken.text.symm.trans hp')
    exact .inr hfamily
  · intro i hi
    rw [hids] at hi
    refine (List.mem_append.mp hi).imp_right ?_
    intro hnew
    obtain rfl := List.mem_singleton.mp hnew
    refine ⟨level.tenancy, level.scope, _, b, hdigest, ⟨level.poolName, howner ▸ hkey⟩, hstored, hprov.taken.text,
      by simp [newProvisionedPool, IPPool.core], ⟨rfl, rfl⟩, ?_, ?_, ?_⟩
    · change level.class_.spec.ipFamily ≠ none
      rw [hfamily]
      simp
    · intro c hc' _
      have hclass := hprov.keepsClasses _ _ hdefined.stored
      rw [howner] at hc'
      have hsame := hclass.symm.trans hc'
      obtain rfl : level.class_.spec = c := by simpa using hsame
      rfl
    · intro r hr hk
      obtain hold | ⟨_, hreserved⟩ | rfl := hprov.mem hr
      · obtain ⟨range, -, hmat⟩ := hprov.taken.reserved
        have hmid : r ∈ mid.rows := hmat.reserves.rows r hold
        exact absurd hk (hprov.taken.admits.allocationKey r hmid)
      · rw [hreserved] at hk
        have hkey' : level.poolKey = poolStorageKey level.class_.project level.poolName := hkey
        cases hk.trans hkey'
      · rfl
  · intro r hr
    obtain hold | ⟨_, hreserved⟩ | rfl := hprov.mem hr
    · exact .inl hold
    · exact .inr fun i hi => hreserved ▸ h.reservation_ne hi
    · exact .inr fun i hi => h.absent_ne habsent hi

theorem Growth.families (hhash : Function.Injective hash) {a : Action} (hgrowth : Growth hash L a L')
    (hc' : Consistent L') (hr : Ranged L) (h : Families hash L) (ha : a.StatesFamily hash L) :
    Families hash L' := by
  cases hgrowth with
  | nothing hs => exact h.shrinks hs hc'
  | @class_ req haction hvalid habsent hledger =>
    have hkeeps : req.KeepsFamily hash L := by
      obtain rfl | rfl := haction
      · exact ha
      · exact ha
    rw [hledger]
    exact h.add_class hvalid habsent hkeeps
  | @pool req haction hvalid habsent hledger =>
    have hstated : req.FamilyStated := by
      obtain ⟨rfl, -⟩ | rfl := haction
      · exact ha
      · exact ha
    rw [hledger, preparePoolForCreate_core]
    refine h.add_pool habsent rfl ?_ (fun i hi => .inl hi) fun r hr => .inl hr
    intro p hp
    by_cases hroot : req.pool.parentPoolRef = none
    · simp only [hroot, if_true] at hp
      obtain ⟨cidr, hcidr, hstring⟩ := Option.bind_eq_some_iff.mp hp
      exact .inr (hstated cidr p hcidr hstring)
    · simp [hroot] at hp
  | @child req parent mid carved pool block b _ href hvalid htaken habsent hledger =>
    obtain ⟨hobjects, hids⟩ := taken_objects htaken
    rw [hobjects] at habsent
    have hadds : AddsRows L carved := h.adds_taken htaken fun i hi => h.absent_ne habsent hi
    rw [hledger]
    have hput : ∀ o, (carved.put req.key o).objects = (L.put req.key o).objects := by
      intro o
      simp only [Ledger.put, hobjects]
    refine h.add_pool habsent (hput _) ?_ ?_ hadds
    · intro p _
      have hcore : validateIPPool (preparePoolForCreate req.pool).core = true := hvalid
      rw [preparePoolForCreate_core] at hcore
      simp only [validateIPPool, href, Bool.and_eq_true, Option.isNone_iff_eq_none] at hcore
      have hfamily : (preparePoolForCreate req.pool).core.ipFamily = none := by
        rw [preparePoolForCreate_core]
        exact hcore.1.1.1.1.1.2
      exact .inl hfamily
    · intro i hi
      exact .inl (hids ▸ hi)
  | provision _ hplan hdefined hdraws hprov => exact h.provision hhash hr hplan hdefined hdraws hprov
  | @block req class_ poolKey n space mid carved pool block b _ _ _ _ _ htaken hrest =>
    obtain ⟨hobjects, hids⟩ := taken_objects htaken
    have hadds : AddsRows L carved := by
      apply h.adds_taken htaken
      intro i hi
      obtain ⟨tenancy, scope, pool, p, hprovided⟩ := h.identities i hi
      obtain ⟨name, hname⟩ := hprovided.key
      rw [hname]
      change allocationObjectKey _ _ _ ≠ poolStorageKey _ _
      simp [allocationObjectKey, poolStorageKey]
    exact (h.add_rows hobjects hids hadds).shrinks hrest hc'

theorem ClassRequest.KeepsFamily.put_class {req : ClassRequest} (h : req.KeepsFamily hash L) (c : IPClass) :
    req.KeepsFamily hash (L.put k (.class_ c)) := by
  intro hsource i hi hname tenancy scope howner hdigest pool hpool
  obtain ⟨-, hnew⟩ | ⟨-, hold⟩ := Ledger.put_objects.mp hpool
  · cases hnew
  · exact h hsource i hi hname tenancy scope howner hdigest pool hold

theorem Change.statesFamily {a : Action} (h : Change hash L a L') (ha : a.StatesFamily hash L) :
    a.StatesFamily hash L' := by
  cases h with
  | createClass _ _ => exact ClassRequest.KeepsFamily.put_class ha _
  | forceClass _ _ => exact ClassRequest.KeepsFamily.put_class ha _
  | @updateClass req force _ _ _ =>
    cases force with
    | false => trivial
    | true => exact ClassRequest.KeepsFamily.put_class ha _
  | createRoot _ _ _ _ => exact ha
  | authorChild _ _ _ _ => exact ha
  | forcePool _ _ => exact ha
  | @updatePool req force _ _ _ =>
    cases force with
    | false => trivial
    | true => exact ha
  | _ => trivial

end

section

variable {hash : Scope.Text → String} {s : Db}

abbrev FamilyRun (hash : Scope.Text → String) : Db → Prop :=
  Served (serve hash) (fun a s => a.Unmapped ∧ a.StatesFamily hash s.ledger) Db.empty

structure Familiar (hash : Scope.Text → String) (s : Db) : Prop where
  tabled : s.Tabled
  consistent : Consistent s.ledger
  ranged : Ranged s.ledger
  families : Families hash s.ledger

theorem empty_familiar : Familiar hash Db.empty := by
  refine ⟨List.nodup_nil, consistent_empty, ranged_empty, ⟨?_, ?_, ?_⟩⟩ <;> simp [Db.ledger, Db.empty, Db.object]

theorem changes_families (hhash : Function.Injective hash) {L L' : Ledger} (hc : Consistent L) (hranged : Ranged L)
    (hfamilies : Families hash L) {a : Action} (ha : a.Unmapped ∧ a.StatesFamily hash L) (h : Changes hash a L L') :
    Consistent L' ∧ (Ranged L' ∧ Families hash L') ∧ a.Unmapped ∧ a.StatesFamily hash L' := by
  refine @changes_inv hash (fun L => Ranged L ∧ Families hash L) (fun a L => a.Unmapped ∧ a.StatesFamily hash L) ?_ a _ _
    hc ⟨hranged, hfamilies⟩ ha h
  rintro a L L' hc ⟨hranged, hfamilies⟩ ⟨hunmapped, hstates⟩ hchange
  have hgrowth := hchange.growth
  exact ⟨⟨hgrowth.ranged hc hranged hunmapped, hgrowth.families hhash (hchange.consistent hc) hranged hfamilies hstates⟩,
    hunmapped, hchange.statesFamily hstates⟩

theorem serve_familiar (hhash : Function.Injective hash) (h : Familiar hash s) {a : Action}
    (ha : a.Unmapped ∧ a.StatesFamily hash s.ledger) : Familiar hash (serve hash a s) := by
  obtain ⟨hc, ⟨hranged, hfamilies⟩, -⟩ := changes_families hhash h.consistent h.ranged h.families ha
    (serve_changes h.tabled h.consistent a)
  exact ⟨serve_tabled h.tabled a, hc, hranged, hfamilies⟩

theorem served_familiar (hhash : Function.Injective hash) (hs : FamilyRun hash s) : Familiar hash s :=
  Served.inv empty_familiar (fun _ _ h ha => serve_familiar hhash h ha) hs

theorem pool_of_ledger {k : Key} {pool : IPPool} (h : s.pool k = some pool) :
    s.ledger.objects k = some (.pool pool.core) := by
  simp only [Db.pool] at h
  split at h
  · rename_i p hp
    obtain rfl := Option.some.inj h
    simp [Db.ledger, hp, Object.core]
  · cases h

theorem Grants.family (hhash : Function.Injective hash) {req : ClaimRequest} {class_ : ResolvedClass} {claim : IPClaim}
    {L : Ledger} (hdefined : Defined L class_) (hranged : Ranged L) (hfamilies : Families hash L)
    (h : Grants hash req class_ s L claim) : ∃ b, claim.allocatedCIDR = some b ∧ class_.spec.ipFamily = some b.family := by
  cases h with
  | @block poolKey n space mid carved pool block b _ hdraws _ _ htaken _ =>
    obtain ⟨p, hat, -, -, -, hwithin, -⟩ := hranged.found htaken
    refine ⟨b, rfl, ?_⟩
    rw [((Cidr.within_iff b p).mp hwithin).1]
    exact hfamilies.draws hhash hdraws hat.stored hat.range
  | @range level poolKey carve _ hplan hidentity hmem hkey _ =>
    have hlevel := (planLevel_class hplan).1
    rw [← hlevel] at hplan hdefined ⊢
    obtain ⟨tenancy, scope, pool, p, hprovided, hfamily, -⟩ := hfamilies.provided hhash hplan hdefined hidentity
    refine ⟨carve.cidr, rfl, ?_⟩
    rw [hprovided.carve carve hmem hkey]
    exact hfamily

theorem poolFamily_agrees (hhash : Function.Injective hash) (hs : FamilyRun hash s) :
    (∀ k pool, s.pool k = some pool → IPPool.range pool = none ∨ ∃ p : Cidr, IPPool.range pool = some p.net ∧
      effectivePoolFamily pool = some p.family ∧ effectiveIPFamily pool = some p.family ∧
      (pool.ipFamily = none ∨ pool.ipFamily = some p.family)) ∧
    ∀ req claim, (createClaim hash req s).1 = .ok claim → ∃ class_ b, req.Names s class_ ∧
      claim.allocatedCIDR = some b ∧ class_.spec.ipFamily = some b.family := by
  obtain ⟨htabled, hc, hranged, hfamilies⟩ := served_familiar hhash hs
  constructor
  · intro k pool hpool
    have hstored := pool_of_ledger hpool
    cases hp : pool.allocatedCIDR with
    | none =>
      left
      have hcidr : pool.cidr = none := hranged.derived k pool.core hstored hp
      simp only [IPPool.range, hp, hcidr]
    | some p =>
      right
      have hfamily := hfamilies.pools k pool.core p hstored hp
      exact ⟨p, by simp only [IPPool.range, hp], effectivePoolFamily_eq hp hfamily, effectiveIPFamily_eq hp hfamily,
        hfamily⟩
  · intro req claim hclaim
    obtain ⟨L, hprovides, -, hgranted⟩ := @createClaim_settled hash s htabled req
    obtain ⟨class_, hgranted⟩ := hgranted claim hclaim
    obtain ⟨-, ⟨hrangedL, hfamiliesL⟩, -⟩ := changes_families (a := .createClaim req) hhash hc hranged hfamilies
      ⟨trivial, trivial⟩ (provides_changes hprovides)
    obtain ⟨b, hb, hfamily⟩ := hgranted.grants.family hhash hgranted.defined hrangedL hfamiliesL
    exact ⟨class_, b, hgranted.names, hb, hfamily⟩

end

def byteChars (t : Scope.Text) : String :=
  String.ofList (t.map fun b => Char.ofNat b.val)

theorem byteChars_injective : Function.Injective byteChars := by
  intro t t' h
  refine List.map_injective_iff.mpr ?_ (String.ofList_injective h)
  intro b b' hb
  have hval : ∀ b : Fin 256, (Char.ofNat b.val).toNat = b.val := by decide +kernel
  have hnat : (Char.ofNat b.val).toNat = (Char.ofNat b'.val).toNat := congrArg Char.toNat hb
  rw [hval, hval] at hnat
  exact Fin.ext hnat

def servedOffice : Db :=
  serve byteChars (.createPool (rootRequest "office" officePool)) Db.empty

def childRequest (name parent : String) (n : ℤ) : PoolRequest :=
  { rootRequest name officePool with
    pool := { poolOf officePool .unset with
      parentPoolRef := some parent
      prefixLength := n
      allocatedCIDR := none } }

def hostsClass : IPClass where
  isDefault := false
  source := none
  ipFamily := some .v4
  addressScope := none
  parentClassName := none
  poolPer := []
  uniqueWithin := []
  allowedPrefixLengths := none
  defaultPrefixLength := 32
  reservations := none
  strategy := none
  reclaimPolicy := none

def hostsClassRequest : ClassRequest :=
  ⟨"infra", "hosts", hostsClass, none, true, []⟩

def offeringRequest (name : String) (range : Cidr) (limit : ℤ) : PoolRequest :=
  { rootRequest name range with
    pool := { (rootRequest name range).pool with classNames := ["hosts"], maxPrefixLength := limit } }

def hostsPoolRequest (limit : ℤ) : PoolRequest :=
  offeringRequest "office" officePool limit

def hostsClaim (address : Option Cidr) : IPClaim where
  className := "hosts"
  ipFamily := none
  addressScope := none
  address := address
  prefixLength := none
  scope := []
  target := .block
  reclaimPolicy := none
  phase := .pending
  allocatedCIDR := none
  poolRef := none
  boundAllocationRef := none

def hostsRequest (address : Option Cidr) : ClaimRequest :=
  ⟨"infra", "default", "web", hostsClaim address, true, true, []⟩

def hostsDb (limit : ℤ) : Db :=
  serve byteChars (.createPool (hostsPoolRequest limit)) (serve byteChars (.createClass hostsClassRequest) Db.empty)

theorem hostsClassRequest_stated : (Action.createClass hostsClassRequest).Unmapped ∧
    (Action.createClass hostsClassRequest).StatesFamily byteChars Db.empty.ledger := by
  refine ⟨trivial, ?_⟩
  intro _ i hi
  simp [Db.ledger, Db.empty] at hi

theorem offeringRequest_stated {name : String} {range : Cidr} {limit : ℤ} {L : Ledger} (hfamily : range.family = .v4) :
    (Action.createPool (offeringRequest name range limit)).Unmapped ∧
      (Action.createPool (offeringRequest name range limit)).StatesFamily byteChars L := by
  constructor
  · intro cidr hcidr
    obtain rfl : range.net = cidr := Option.some.inj hcidr
    refine ⟨range, range.string_net, fun hmapped => ?_⟩
    rw [hmapped.1] at hfamily
    cases hfamily
  · intro cidr p hcidr hp
    obtain rfl : range.net = cidr := Option.some.inj hcidr
    obtain rfl : range = p := Option.some.inj (range.string_net.symm.trans hp)
    exact congrArg some hfamily.symm

def cutDb : Db :=
  serve byteChars (.createPool (childRequest "east" "office" 25)) (hostsDb 0)

theorem poolFamily_agrees_cut :
    Function.Injective byteChars ∧ FamilyRun byteChars cutDb ∧
    (∃ (pool : IPPool) (p : Cidr), cutDb.pool (poolStorageKey "infra" "east") = some pool ∧
      IPPool.range pool = some p.net ∧ effectivePoolFamily pool = some p.family) ∧
    ∃ claim class_ b, (createClaim byteChars (hostsRequest none) cutDb).1 = .ok claim ∧
      (hostsRequest none).Names cutDb class_ ∧ claim.allocatedCIDR = some b ∧ class_.spec.ipFamily = some b.family := by
  have hrun : FamilyRun byteChars cutDb := by
    refine .serve _ (.serve _ (.serve _ .start hostsClassRequest_stated) (offeringRequest_stated rfl)) ⟨?_, ?_⟩
    · rintro cidr ⟨⟩
    · rintro cidr p ⟨⟩
  obtain ⟨hpools, hclaims⟩ := poolFamily_agrees byteChars_injective hrun
  refine ⟨byteChars_injective, hrun, ?_, ?_⟩
  · have hrange : ((cutDb.pool (poolStorageKey "infra" "east")).bind IPPool.range).isSome = true := by decide +kernel
    obtain ⟨range, hrange⟩ := Option.isSome_iff_exists.mp hrange
    obtain ⟨pool, hpool, hrange⟩ := Option.bind_eq_some_iff.mp hrange
    obtain hnone | ⟨p, hp, hfamily, -⟩ := hpools _ pool hpool
    · rw [hrange] at hnone
      cases hnone
    · exact ⟨pool, p, hpool, hp, hfamily⟩
  · have hbound : ((createClaim byteChars (hostsRequest none) cutDb).1.toOption).isSome = true := by decide +kernel
    cases hclaim : (createClaim byteChars (hostsRequest none) cutDb).1 with
    | error e =>
      rw [hclaim] at hbound
      cases hbound
    | ok claim =>
      obtain ⟨class_, b, hnames, hb, hfamily⟩ := hclaims _ claim hclaim
      exact ⟨claim, class_, b, rfl, hnames, hb, hfamily⟩

theorem poolFamily_mismatch :
    ((serve byteChars (.createPool { rootRequest "office" officePool with
      pool := { (rootRequest "office" officePool).pool with ipFamily := some .v6 } }) Db.empty).pool
        (poolStorageKey "infra" "office")).map (fun pool => (effectivePoolFamily pool, (IPPool.range pool).map familyOf)) =
      some (some .v6, some .v4) := by
  decide +kernel

end Ipam.Registry
