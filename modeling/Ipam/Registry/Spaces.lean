import Ipam.Registry.Offers

namespace Ipam.Registry

open Allocation Allocator Cascade Database Transaction

structure Grant where
  uniqueWithin : List String
  tenant : String
  scope : Scope
  deriving DecidableEq, Repr

def Grant.space (g : Grant) : Except Err (List ((String × String) × ScopeRef)) :=
  (projectFor g.scope g.uniqueWithin "uniqueWithin").map fun projected => projected.map fun e => ((g.tenant, e.1), e.2)

def ClaimRequest.namedClass (req : ClaimRequest) (s : Db) : Option ResolvedClass :=
  match postgres.run (resolveClass req.tenant req.claim.className req.claim.ipFamily) s with
  | .ok (class_, _) => some class_
  | .error _ => none

def Action.grant (s : Db) : Action → Option Grant
  | .createClaim req => (req.namedClass s).map fun c => ⟨c.spec.uniqueWithin, req.tenant, req.claim.scope⟩
  | _ => none

structure GrantHistory where
  db : Db
  granted : Key → Option Grant

/-- A row that is there keeps its grant, and one that appears was handed out by the present request. -/
def GrantHistory.serve (hash : Scope.Text → String) (a : Action) (h : GrantHistory) : GrantHistory :=
  ⟨Registry.serve hash a h.db, fun k =>
    if h.db.rows.any (fun r => r.allocationKey = k) then h.granted k else a.grant h.db⟩

def GrantHistory.start : GrantHistory :=
  ⟨Db.empty, fun _ => none⟩

def OfferedBy (L : Ledger) (c : ResolvedClass) (k : Key) : Prop :=
  RootClass L c.project c.name c.spec ∧ ∃ namespace_ name pool, k = .object c.project .ippools namespace_ name ∧
    L.objects k = some (.pool pool) ∧ c.name ∈ pool.classNames

def ProvidedTo (hash : Scope.Text → String) (L : Ledger) (c : ResolvedClass) (k : Key) : Prop :=
  Defined L c ∧ ∃ consumer claimScope upper, ParentOf L c upper.class_ ∧
    planLevel hash consumer claimScope upper.class_ = .ok upper ∧ ⟨upper.class_.name, upper.scopeDigest, k⟩ ∈ L.identities

def Reaches (hash : Scope.Text → String) (L : Ledger) (c : ResolvedClass) (k : Key) : Prop :=
  OfferedBy L c k ∨ ProvidedTo hash L c k

/-- What the offer checks do not look at: the children of one class are unique within the same roles, so are the
children of a class and those that its pool offers itself to, and so is a class and the blocks in the pools it reaches. -/
structure Coherent (hash : Scope.Text → String) (granted : Key → Option Grant) (L : Ledger) : Prop where
  siblings : ∀ c c' x x', Defined L c → Defined L c' → ParentOf L c x → ParentOf L c' x' → x.project = x'.project →
    x.name = x'.name → SameRoles c.spec c'.spec
  offered : ∀ c c' k, OfferedBy L c k → ProvidedTo hash L c' k → SameRoles c.spec c'.spec
  blocks : ∀ r ∈ L.rows, Row.Backs r → ∀ c, Reaches hash L c r.poolKey → ∀ grant,
    granted r.allocationKey = some grant → ∀ role, role ∈ c.spec.uniqueWithin ↔ role ∈ grant.uniqueWithin

/-- The requests of the administration: no class is updated, pools are created by Create, and a class or a pool that
the offer checks let through is coherent with what is stored. -/
def Action.KeepsSpaces (hash : Scope.Text → String) (h : GrantHistory) : Action → Prop
  | .createClass req => OffersAgree (h.db.ledger.put req.key (.class_ req.class_)) →
    Coherent hash h.granted (h.db.ledger.put req.key (.class_ req.class_))
  | .updateClass _ _ => False
  | .createPool req => OffersAgree (h.db.ledger.put req.key (.pool req.pool)) →
    Coherent hash h.granted (h.db.ledger.put req.key (.pool req.pool))
  | .updatePool req force => (force = true → h.db.ledger.objects req.key ≠ none) ∧
    (OffersAgree (h.db.ledger.put req.key (.pool req.pool)) →
      Coherent hash h.granted (h.db.ledger.put req.key (.pool req.pool)))
  | _ => True

abbrev SpaceRun (hash : Scope.Text → String) : GrantHistory → Prop :=
  Served (GrantHistory.serve hash) (fun a h => a.KeepsSpaces hash h) GrantHistory.start

def SameDigest (r o : Row) : Prop :=
  r.scopeDigest = o.scopeDigest

structure Recorded (hash : Scope.Text → String) (granted : Key → Option Grant) (r : Row) (grant : Grant)
    (space : Scope × String) : Prop where
  grant_eq : granted r.allocationKey = some grant
  space_eq : projectAddressSpaceDigest hash grant.tenant grant.scope grant.uniqueWithin "uniqueWithin" = .ok space
  digest : r.scopeDigest = searchDigest (emptySpace hash) space.2

def BlocksAgree (granted : Key → Option Grant) (L : Ledger) : Prop :=
  ∀ r ∈ L.rows, Row.Backs r → ∀ o ∈ L.rows, Row.Backs o → r.poolKey = o.poolKey → ∀ grant grant',
    granted r.allocationKey = some grant → granted o.allocationKey = some grant' →
      ∀ role, role ∈ grant.uniqueWithin ↔ role ∈ grant'.uniqueWithin

structure Spaced (hash : Scope.Text → String) (granted : Key → Option Grant) (L : Ledger) : Prop where
  offers : OffersAgree L
  coherent : Coherent hash granted L
  blocks : BlocksAgree granted L
  identities : ∀ i ∈ L.identities, ∀ j ∈ L.identities, i.poolKey = j.poolKey → i = j
  recorded : ∀ r ∈ L.rows, Row.Backs r → ∃ grant space, Recorded hash granted r grant space

section

variable {hash : Scope.Text → String} {granted granted' : Key → Option Grant} {L L' : Ledger} {c c' : ResolvedClass}
  {k : Key}

theorem Draws.reaches {consumer : String} {claimScope : Scope} (hc : Defined L c)
    (h : Draws hash L consumer claimScope c k) : Reaches hash L c k := by
  cases h with
  | @offered pool hroot hoffers =>
    obtain ⟨namespace_, name, hk⟩ := hoffers.project
    exact .inl ⟨⟨hc.stored, hc.definition, hroot⟩, namespace_, name, pool, hk, hoffers.stored, hoffers.className⟩
  | provisioned hparent hplan _ hidentity => exact .inr ⟨hc, _, _, _, hparent, hplan, hidentity⟩

theorem OfferedBy.confines (hL : Confines L L') (h : OfferedBy L' c k) : OfferedBy L c k := by
  obtain ⟨hroot, namespace_, name, pool', hk, hpool', hname⟩ := h
  obtain ⟨pool, hpool, hsub⟩ := hL.offers k pool' hpool'
  exact ⟨⟨hL.classes _ _ hroot.stored, hroot.definition, hroot.root⟩, namespace_, name, pool, hk, hpool, hsub hname⟩

theorem ProvidedTo.confines (hL : Confines L L') (h : ProvidedTo hash L' c k) : ProvidedTo hash L c k := by
  obtain ⟨hc, consumer, claimScope, upper, hparent, hplan, hidentity⟩ := h
  exact ⟨hc.mono hL.classes, consumer, claimScope, upper, hparent.mono hL.classes, hplan, hL.identities _ hidentity⟩

theorem Reaches.confines (hL : Confines L L') (h : Reaches hash L' c k) : Reaches hash L c k :=
  h.imp (OfferedBy.confines hL) (ProvidedTo.confines hL)

theorem Row.eq_of_unclaimed {r o : Row} (h : o.unclaimed = r.unclaimed) :
    o.allocationKey = r.allocationKey ∧ o.poolKey = r.poolKey ∧ o.scopeDigest = r.scopeDigest := by
  have hkey : o.unclaimed.allocationKey = r.unclaimed.allocationKey := congrArg Row.allocationKey h
  have hpool : o.unclaimed.poolKey = r.unclaimed.poolKey := congrArg Row.poolKey h
  have hdigest : o.unclaimed.scopeDigest = r.unclaimed.scopeDigest := congrArg Row.scopeDigest h
  exact ⟨hkey, hpool, hdigest⟩

theorem Narrows.block (hL : Narrows L L') {r : Row} (hr : r ∈ L'.rows) (hbacks : Row.Backs r) :
    ∃ o ∈ L.rows, Row.Backs o ∧ o.allocationKey = r.allocationKey ∧ o.poolKey = r.poolKey ∧
      o.scopeDigest = r.scopeDigest := by
  obtain ⟨o, ho, heq⟩ := hL.rows r hr hbacks
  obtain ⟨hkey, hpool, hdigest⟩ := Row.eq_of_unclaimed heq
  have hbacks' : Row.Backs o := by
    rw [Row.Backs, hkey]
    exact hbacks
  exact ⟨o, ho, hbacks', hkey, hpool, hdigest⟩

theorem Coherent.narrows (h : Coherent hash granted L) (hL : Narrows L L') : Coherent hash granted L' := by
  refine ⟨?_, ?_, ?_⟩
  · intro c c' x x' hc hc' hx hx'
    exact h.siblings c c' x x' (hc.mono hL.classes) (hc'.mono hL.classes) (hx.mono hL.classes) (hx'.mono hL.classes)
  · exact fun c c' k hc hc' => h.offered c c' k (hc.confines hL.toConfines) (hc'.confines hL.toConfines)
  · intro r hr hbacks c hc grant hgrant
    obtain ⟨o, ho, hbacks', hkey, hpool, -⟩ := hL.block hr hbacks
    rw [← hkey] at hgrant
    rw [← hpool] at hc
    exact h.blocks o ho hbacks' c (hc.confines hL.toConfines) grant hgrant

theorem Spaced.narrows (h : Spaced hash granted L) (hL : Narrows L L') : Spaced hash granted L' := by
  refine ⟨h.offers.confines hL.toConfines, h.coherent.narrows hL, ?_, ?_, ?_⟩
  · intro r hr hbacks o ho hbacks' hsame grant grant' hgrant hgrant'
    obtain ⟨r₀, hr₀, hbacks₀, hkey, hpool, -⟩ := hL.block hr hbacks
    obtain ⟨o₀, ho₀, hbacks₀', hkey', hpool', -⟩ := hL.block ho hbacks'
    rw [← hkey] at hgrant
    rw [← hkey'] at hgrant'
    exact h.blocks r₀ hr₀ hbacks₀ o₀ ho₀ hbacks₀' (hpool.trans (hsame.trans hpool'.symm)) grant grant' hgrant hgrant'
  · exact fun i hi j hj => h.identities i (hL.identities i hi) j (hL.identities j hj)
  · intro r hr hbacks
    obtain ⟨o, ho, hbacks', hkey, -, hdigest⟩ := hL.block hr hbacks
    obtain ⟨grant, space, hrecorded⟩ := h.recorded o ho hbacks'
    refine ⟨grant, space, ?_, hrecorded.space_eq, ?_⟩
    · rw [← hkey]
      exact hrecorded.grant_eq
    · rw [← hdigest]
      exact hrecorded.digest

theorem Coherent.congr (h : Coherent hash granted L)
    (hgranted : ∀ r ∈ L.rows, granted' r.allocationKey = granted r.allocationKey) : Coherent hash granted' L := by
  refine ⟨h.siblings, h.offered, ?_⟩
  intro r hr hbacks c hc grant hgrant
  rw [hgranted r hr] at hgrant
  exact h.blocks r hr hbacks c hc grant hgrant

theorem Spaced.congr (h : Spaced hash granted L)
    (hgranted : ∀ r ∈ L.rows, granted' r.allocationKey = granted r.allocationKey) : Spaced hash granted' L := by
  refine ⟨h.offers, h.coherent.congr hgranted, ?_, h.identities, ?_⟩
  · intro r hr hbacks o ho hbacks' hsame grant grant' hgrant hgrant'
    rw [hgranted r hr] at hgrant
    rw [hgranted o ho] at hgrant'
    exact h.blocks r hr hbacks o ho hbacks' hsame grant grant' hgrant hgrant'
  intro r hr hbacks
  obtain ⟨grant, space, hrecorded⟩ := h.recorded r hr hbacks
  exact ⟨grant, space, (hgranted r hr).trans hrecorded.grant_eq, hrecorded.space_eq, hrecorded.digest⟩

theorem Spaced.reaches (hhash : Function.Injective hash) (h : Spaced hash granted L) (hc : Reaches hash L c k)
    (hc' : Reaches hash L c' k) : SameRoles c.spec c'.spec := by
  cases hc with
  | inl hoffered =>
    cases hc' with
    | inl hoffered' =>
      obtain ⟨hroot, namespace_, name, pool, hk, hpool, hname⟩ := hoffered
      obtain ⟨hroot', namespace', name', pool', hk', hpool', hname'⟩ := hoffered'
      obtain rfl := Object.pool.inj (Option.some.inj (hpool.symm.trans hpool'))
      have hproject : c.project = c'.project := (Key.object.inj (hk.symm.trans hk')).1
      rw [hk] at hpool
      rw [← hproject] at hroot'
      exact h.offers _ _ _ pool hpool _ hname _ hname' _ _ hroot hroot'
    | inr hprovided => exact h.coherent.offered c c' k hoffered hprovided
  | inr hprovided =>
    cases hc' with
    | inl hoffered' => exact (h.coherent.offered c' c k hoffered' hprovided).symm
    | inr hprovided' =>
      obtain ⟨hdef, consumer, claimScope, upper, hparent, hplan, hidentity⟩ := hprovided
      obtain ⟨hdef', consumer', claimScope', upper', hparent', hplan', hidentity'⟩ := hprovided'
      have hsame := h.identities _ hidentity _ hidentity' rfl
      simp only [Identity.mk.injEq, and_true] at hsame
      obtain ⟨-, howner, hdigest, -⟩ := planLevel_class hplan
      obtain ⟨-, howner', hdigest', -⟩ := planLevel_class hplan'
      have htenancy : upper.tenancy = upper'.tenancy := by
        apply poolDigest_inj hhash
        rw [← hdigest, ← hdigest', hsame.2]
      refine h.coherent.siblings c c' _ _ hdef hdef' hparent hparent' ?_ hsame.1
      rw [← howner, ← howner', htenancy]

section

variable {ed : String} {level : CascadeLevel} {source : Key} {n : ℤ} {mid carved : Ledger} {pool : IPPool} {block : IPNet}
  {b : Cidr}

variable (hprov : Provisioned ed level source n L mid carved L' pool block b)

include hprov

theorem provisioned_rows {consumer : String} {claimScope : Scope}
    (hplan : planLevel hash consumer claimScope level.class_ = .ok level) {r : Row} (hr : Row.Backs r) :
    r ∈ L'.rows ↔ r ∈ L.rows := by
  refine (Provisioned.backs hprov hr).trans (or_iff_left ?_)
  rintro rfl
  have hkey : Key.resource level.poolKey = some .ipallocations := hr
  rw [(planLevel_class hplan).2.2.2] at hkey
  cases hkey

theorem OfferedBy.provisioned (h : OfferedBy L' c k) : OfferedBy L c k ∧ k ≠ level.poolKey := by
  obtain ⟨hroot, namespace_, name, pool', hk, hpool', hname⟩ := h
  have hclasses := Provisioned.classes hprov
  have hne : k ≠ level.poolKey := by
    intro heq
    rw [hprov.objects.1, heq, Function.update_self] at hpool'
    obtain rfl := Object.pool.inj (Option.some.inj hpool')
    cases hname
  rw [hprov.objects.1, Function.update_of_ne hne] at hpool'
  exact ⟨⟨⟨hclasses _ _ hroot.stored, hroot.definition, hroot.root⟩, namespace_, name, pool', hk, hpool', hname⟩, hne⟩

theorem ProvidedTo.provisioned (h : ProvidedTo hash L' c k) : ProvidedTo hash L c k ∨ k = level.poolKey := by
  obtain ⟨hc, consumer, claimScope, upper, hparent, hplan', hidentity⟩ := h
  have hclasses := Provisioned.classes hprov
  rw [hprov.objects.2.1] at hidentity
  cases List.mem_append.mp hidentity with
  | inl hold =>
    exact .inl ⟨hc.mono hclasses, consumer, claimScope, upper, hparent.mono hclasses, hplan', hold⟩
  | inr hnew => exact .inr (congrArg Identity.poolKey (List.mem_singleton.mp hnew))

theorem Reaches.provisioned (h : Reaches hash L' c k) : Reaches hash L c k ∨ k = level.poolKey := by
  cases h with
  | inl hoffered => exact .inl (.inl (OfferedBy.provisioned hprov hoffered).1)
  | inr hprovided => exact (ProvidedTo.provisioned hprov hprovided).imp .inr id

theorem Spaced.provisioned {consumer : String} {claimScope : Scope}
    (hplan : planLevel hash consumer claimScope level.class_ = .ok level) (h : Spaced hash granted L)
    (hc : Consistent L) : Spaced hash granted L' := by
  have hclasses := Provisioned.classes hprov
  have hstored : ∀ {k' pool'}, L.objects k' = some (.pool pool') → k' ≠ level.poolKey := by
    rintro k' pool' hpool' rfl
    rw [hprov.objects.2.2] at hpool'
    cases hpool'
  refine ⟨?_, ⟨?_, ?_, ?_⟩, ?_, ?_, ?_⟩
  · intro project namespace_ name pool' hpool' m hm m' hm' x x' hx hx'
    by_cases hk : Key.object project .ippools namespace_ name = level.poolKey
    · rw [hprov.objects.1, hk, Function.update_self] at hpool'
      obtain rfl := Object.pool.inj (Option.some.inj hpool')
      cases hm
    · rw [hprov.objects.1, Function.update_of_ne hk] at hpool'
      exact h.offers _ _ _ pool' hpool' m hm m' hm' x x' ⟨hclasses _ _ hx.stored, hx.definition, hx.root⟩
        ⟨hclasses _ _ hx'.stored, hx'.definition, hx'.root⟩
  · intro x x' y y' hx hx' hy hy'
    exact h.coherent.siblings x x' y y' (hx.mono hclasses) (hx'.mono hclasses) (hy.mono hclasses) (hy'.mono hclasses)
  · intro x x' k' hx hx'
    obtain ⟨hoffered, hne⟩ := OfferedBy.provisioned hprov hx
    exact h.coherent.offered x x' k' hoffered ((ProvidedTo.provisioned hprov hx').resolve_right hne)
  · intro r hr hbacks x hx
    have hold := (provisioned_rows hprov hplan hbacks).mp hr
    obtain ⟨pool', -, hpool', -⟩ := hc.pools r hold
    exact h.coherent.blocks r hold hbacks x ((Reaches.provisioned hprov hx).resolve_right (hstored hpool'))
  · intro r hr hbacks o ho hbacks'
    exact h.blocks r ((provisioned_rows hprov hplan hbacks).mp hr) hbacks o
      ((provisioned_rows hprov hplan hbacks').mp ho) hbacks'
  · -- an identity from before names a stored pool, so not the new one
    have hold : ∀ i ∈ L.identities, i.poolKey ≠ level.poolKey := by
      intro i hi
      obtain ⟨pool', hpool'⟩ := hc.identities i hi
      exact hstored hpool'
    intro i hi j hj hkey
    rw [hprov.objects.2.1] at hi hj
    cases List.mem_append.mp hi with
    | inl hi' =>
      cases List.mem_append.mp hj with
      | inl hj' => exact h.identities i hi' j hj' hkey
      | inr hj' => exact absurd (hkey.trans (congrArg Identity.poolKey (List.mem_singleton.mp hj'))) (hold i hi')
    | inr hi' =>
      cases List.mem_append.mp hj with
      | inl hj' =>
        have hnew : j.poolKey = level.poolKey := hkey.symm.trans (congrArg Identity.poolKey (List.mem_singleton.mp hi'))
        exact absurd hnew (hold j hj')
      | inr hj' => rw [List.mem_singleton.mp hi', List.mem_singleton.mp hj']
  · exact fun r hr hbacks => h.recorded r ((provisioned_rows hprov hplan hbacks).mp hr) hbacks

end

theorem Provides.spaced {req : ClaimRequest} (h : Provides hash req L L') (hL : Spaced hash granted L)
    (hc : Consistent L) : Spaced hash granted L' ∧ ∀ r, Row.Backs r → (r ∈ L'.rows ↔ r ∈ L.rows) := by
  obtain ⟨level, source, n, mid, carved, pool, block, b, hplan, -, -, hprov⟩ := h
  exact ⟨hL.provisioned hprov hplan hc, fun r hr => provisioned_rows hprov hplan hr⟩

theorem Settles.spaced (hhash : Function.Injective hash) {req : ClaimRequest} {s : Db} (h : Settles hash req s L L')
    (hL : Spaced hash granted L) (hc : Consistent L) (hrows : ∀ r ∈ s.rows, Row.Backs r → r ∈ L.rows)
    (hgranted : ∀ k, (∀ r ∈ s.rows, r.allocationKey ≠ k) → granted k = (Action.createClaim req).grant s) :
    Spaced hash granted L' := by
  cases h with
  | nothing => exact hL
  | range htarget hchange =>
    cases hchange with
    | provision hplan _ _ hprov => exact hL.provisioned hprov hplan hc
    | bindBlock htarget' _ _ _ _ _ _ _ _ =>
      rw [htarget] at htarget'
      cases htarget'
    | holdRange _ _ _ _ _ _ _ _ _ _ =>
      apply hL.narrows
      have hshrinks := Shrinks.refl L
      exact .of_shrinks ((hshrinks.setClaim _).put_bound rfl) fun _ _ hb ho => put_bound_kept rfl hb ho
  | @block class_ poolKey n space mid carved pool block b hnames _ _ hdefined hdraws _ hspace htaken _ _ =>
    obtain ⟨hobjects, hids⟩ := taken_objects htaken
    have hconfines : Confines L ((carved.put (req.allocationKey hash) (.allocation (boundAllocation req class_ poolKey
        (effectiveReclaimPolicy class_.spec req.claim.reclaimPolicy) space b))).put req.key
          (.claim (boundClaim hash req (req.claimOf class_) poolKey b))) := by
      refine .of_kept ?_ fun i hi => by rwa [← hids]
      intro k o hb ho
      rw [← hobjects]
      exact put_bound_kept rfl hb (put_bound_kept rfl hb ho)
    have hgrant : granted (req.allocationKey hash) =
        some ⟨class_.spec.uniqueWithin, req.tenant, req.claim.scope⟩ := by
      rw [hgranted]
      · have hrun : postgres.run (resolveClass req.tenant req.claim.className req.claim.ipFamily) s = .ok (class_, s) :=
          hnames
        simp only [Action.grant, ClaimRequest.namedClass, hrun, Option.map_some]
      · intro r hr hkey
        have hbacks : Row.Backs r := by
          rw [Row.Backs, hkey]
          rfl
        obtain ⟨range, -, hmat⟩ := htaken.reserved
        exact htaken.admits.allocationKey r (hmat.reserves.rows r (hrows r hr hbacks)) hkey
    have hreaches : Reaches hash L class_ poolKey := Draws.reaches hdefined hdraws
    refine ⟨hL.offers.confines hconfines, ⟨?_, ?_, ?_⟩, ?_, ?_, ?_⟩
    · intro x x' y y' hx hx' hy hy'
      exact hL.coherent.siblings x x' y y' (hx.mono hconfines.classes) (hx'.mono hconfines.classes)
        (hy.mono hconfines.classes) (hy'.mono hconfines.classes)
    · exact fun x x' k hx hx' => hL.coherent.offered x x' k (hx.confines hconfines) (hx'.confines hconfines)
    · intro r hr hbacks x hx grant hrecord role
      have hx' := hx.confines hconfines
      obtain hold | rfl := (Taken.backs htaken hbacks).mp hr
      · exact hL.coherent.blocks r hold hbacks x hx' grant hrecord role
      · obtain rfl := Option.some.inj (hgrant.symm.trans hrecord)
        exact hL.reaches hhash hx' hreaches role
    · intro r hr hbacks o ho hbacks' hsame grant grant' hrecord hrecord' role
      obtain hold | rfl := (Taken.backs htaken hbacks).mp hr
      · obtain hold' | rfl := (Taken.backs htaken hbacks').mp ho
        · exact hL.blocks r hold hbacks o hold' hbacks' hsame grant grant' hrecord hrecord' role
        · obtain rfl := Option.some.inj (hgrant.symm.trans hrecord')
          have hpool : r.poolKey = poolKey := hsame
          rw [← hpool] at hreaches
          exact (hL.coherent.blocks r hold hbacks class_ hreaches grant hrecord role).symm
      · obtain rfl := Option.some.inj (hgrant.symm.trans hrecord)
        obtain hold' | rfl := (Taken.backs htaken hbacks').mp ho
        · have hpool : poolKey = o.poolKey := hsame
          rw [hpool] at hreaches
          exact hL.coherent.blocks o hold' hbacks' class_ hreaches grant' hrecord' role
        · obtain rfl := Option.some.inj (hgrant.symm.trans hrecord')
          exact Iff.rfl
    · exact fun i hi j hj => hL.identities i (hconfines.identities i hi) j (hconfines.identities j hj)
    · intro r hr hbacks
      obtain hold | rfl := (Taken.backs htaken hbacks).mp hr
      · exact hL.recorded r hold hbacks
      · exact ⟨_, space, hgrant, hspace, rfl⟩

theorem sameDigest_unclaiming : Unclaiming SameDigest := by
  refine ⟨fun h => Eq.symm h, ?_⟩
  intro r r' o o' hr ho h
  rw [SameDigest, ← (Row.eq_of_unclaimed hr).2.2, ← (Row.eq_of_unclaimed ho).2.2]
  exact h

theorem Taken.excluded {ed digest : String} {n : ℤ} {row : Cidr → Row} {mid carved : Ledger} {pool : IPPool}
    {block : IPNet} {b : Cidr} (h : Taken ed k digest n row L mid carved pool block b) (hL : ApartFor SameDigest L) :
    ApartFor SameDigest carved := by
  obtain ⟨range, -, hmat⟩ := h.reserved
  rw [h.ledger]
  exact (hL.reserves sameDigest_unclaiming hmat.reserves).add sameDigest_unclaiming h.admits.apart

theorem Growth.excluded {a : Action} (h : Growth hash L a L') (hL : ApartFor SameDigest L) : ApartFor SameDigest L' := by
  cases h with
  | nothing hshrinks => exact hL.shrinks sameDigest_unclaiming hshrinks
  | class_ _ _ _ hledger =>
    rw [hledger]
    exact hL
  | pool _ _ _ hledger =>
    rw [hledger]
    exact hL
  | child _ _ _ htaken _ hledger =>
    have hcarved := Taken.excluded htaken hL
    rw [hledger]
    exact hcarved
  | @provision _ level source n _ carved _ block _ _ _ _ _ hprov =>
    have hcarved := Taken.excluded hprov.taken hL
    have hput : ApartFor SameDigest
      (carved.put level.poolKey (.pool (newProvisionedPool level (keyName source) n block).core)) := hcarved
    exact hput.reserves sameDigest_unclaiming hprov.materialised.reserves
  | block _ _ _ _ _ htaken hrest => exact (Taken.excluded htaken hL).shrinks sameDigest_unclaiming hrest

end

section

variable {hash : Scope.Text → String} {h : GrantHistory}

theorem Spaced.empty (hash : Scope.Text → String) (granted : Key → Option Grant) :
    Spaced hash granted Db.empty.ledger := by
  have hnone : ∀ k, Db.empty.ledger.objects k = none := fun _ => rfl
  refine ⟨?_, ⟨?_, ?_, ?_⟩, ?_, ?_, ?_⟩
  · intro project namespace_ name pool hpool
    rw [hnone] at hpool
    cases hpool
  · intro c c' x x' hc
    have hstored := hc.stored
    rw [hnone] at hstored
    cases hstored
  · intro c c' k hc
    have hstored := hc.1.stored
    rw [hnone] at hstored
    cases hstored
  · exact fun r hr => absurd hr List.not_mem_nil
  · exact fun r hr => absurd hr List.not_mem_nil
  · exact fun i hi => absurd hi List.not_mem_nil
  · exact fun r hr => absurd hr List.not_mem_nil

theorem granted_serve {a : Action} {r : Row} (hr : r ∈ h.db.rows) :
    (h.serve hash a).granted r.allocationKey = h.granted r.allocationKey := by
  apply if_pos
  exact List.any_eq_true.mpr ⟨r, hr, by simp⟩

theorem createClaim_spaced (hhash : Function.Injective hash) (req : ClaimRequest) (htabled : h.db.Tabled)
    (hc : Consistent h.db.ledger) (hL : Spaced hash h.granted h.db.ledger) :
    Spaced hash (h.serve hash (.createClaim req)).granted (serve hash (.createClaim req) h.db).ledger := by
  have hsettled : Settled hash req h.db _ (serve hash (.createClaim req) h.db).ledger := createClaim_settled htabled req
  obtain ⟨L, hprovides, hsettles, -⟩ := hsettled
  have hstart : Spaced hash (h.serve hash (.createClaim req)).granted h.db.ledger :=
    hL.congr fun r hr => granted_serve hr
  have hall : Spaced hash (h.serve hash (.createClaim req)).granted L ∧ Consistent L ∧
      ∀ r ∈ h.db.rows, Row.Backs r → r ∈ L.rows := by
    clear hsettles
    induction hprovides with
    | refl => exact ⟨hstart, hc, fun r hr _ => hr⟩
    | tail _ hlast ih =>
      obtain ⟨hspaced, hcons, hrows⟩ := ih
      obtain ⟨hspaced', hsame⟩ := Provides.spaced hlast hspaced hcons
      exact ⟨hspaced', hlast.change.consistent hcons, fun r hr hbacks => (hsame r hbacks).mpr (hrows r hr hbacks)⟩
  obtain ⟨hspaced, hcons, hrows⟩ := hall
  refine Settles.spaced hhash hsettles hspaced hcons hrows ?_
  intro k hk
  apply if_neg
  simpa using hk

theorem Action.KeepsSpaces.through {a : Action} (ha : a.KeepsSpaces hash h) :
    a.ThroughCreate h.db.ledger ∧ (∀ req force, a ≠ .updateClass req force) := by
  cases a with
  | updateClass req force => exact ha.elim
  | updatePool req force =>
    refine ⟨?_, fun _ _ heq => nomatch heq⟩
    cases force with
    | true => exact ha.1 rfl
    | false => trivial
  | _ => exact ⟨trivial, fun _ _ heq => nomatch heq⟩

theorem Action.KeepsSpaces.coherent {a : Action} (ha : a.KeepsSpaces hash h)
    (hL : Coherent hash h.granted h.db.ledger) (hoffers : OffersAgree (a.written h.db.ledger)) :
    Coherent hash h.granted (a.written h.db.ledger) := by
  cases a with
  | createClass req => exact ha hoffers
  | createPool req => exact ha hoffers
  | updatePool req force => exact ha.2 hoffers
  | updateClass req force => exact ha.elim
  | _ => exact hL

theorem written_rows (a : Action) (L : Ledger) : (a.written L).rows = L.rows ∧ (a.written L).identities = L.identities := by
  cases a <;> exact ⟨rfl, rfl⟩

theorem serve_spaced {a : Action} (hclaim : ∀ req, a ≠ .createClaim req) (htabled : h.db.Tabled)
    (hc : Consistent h.db.ledger) (hL : Spaced hash h.granted h.db.ledger) (ha : a.KeepsSpaces hash h) :
    Spaced hash (h.serve hash a).granted (serve hash a h.db).ledger := by
  obtain ⟨hthrough, hclass⟩ := ha.through
  have hstart : Spaced hash (h.serve hash a).granted h.db.ledger := hL.congr fun r hr => granted_serve hr
  have hchanges : Changes hash a h.db.ledger (serve hash a h.db).ledger := serve_changes htabled hc a
  obtain hsame | hnarrows := changes_narrows hchanges hclaim hclass
  · rw [hsame]
    exact hstart
  · obtain hsame | hoffers := @serve_offers hash h.db hL.offers a hthrough
    · rw [hsame]
      exact hstart
    · obtain ⟨hrows, hids⟩ := written_rows a h.db.ledger
      have hwritten : Spaced hash h.granted (a.written h.db.ledger) := by
        refine ⟨hoffers, ha.coherent hL.coherent hoffers, ?_, ?_, ?_⟩
        · rw [BlocksAgree, hrows]
          exact hL.blocks
        · rw [hids]
          exact hL.identities
        · rw [hrows]
          exact hL.recorded
      have hcongr : Spaced hash (h.serve hash a).granted (a.written h.db.ledger) := by
        apply hwritten.congr
        intro r hr
        rw [hrows] at hr
        exact granted_serve hr
      exact hcongr.narrows hnarrows

theorem run_spaced (hhash : Function.Injective hash) (hs : SpaceRun hash h) :
    Consistent h.db.ledger ∧ ApartFor SameDigest h.db.ledger ∧ Spaced hash h.granted h.db.ledger := by
  refine (Served.inv (I := fun h => h.db.Tabled ∧ Consistent h.db.ledger ∧ ApartFor SameDigest h.db.ledger ∧
    Spaced hash h.granted h.db.ledger) ⟨?_, ?_, ?_, ?_⟩ ?_ hs).2
  · exact List.nodup_nil
  · exact ⟨⟨.nil, .nil⟩, by simp [Db.ledger, GrantHistory.start, Db.empty], by
      simp [Db.ledger, GrantHistory.start, Db.empty]⟩
  · exact fun r hr => absurd hr List.not_mem_nil
  · exact .empty hash _
  · rintro a h ⟨htabled, hc, hapart, hL⟩ ha
    have hchanges : Changes hash a h.db.ledger (serve hash a h.db).ledger := serve_changes htabled hc a
    obtain ⟨hc', hapart', -⟩ := @changes_inv hash (ApartFor SameDigest) (fun _ _ => True)
      (fun _ hi _ hchange => ⟨hchange.growth.excluded hi, trivial⟩) _ _ _ hc hapart trivial hchanges
    refine ⟨serve_tabled htabled a, hc', hapart', ?_⟩
    by_cases hclaim : ∃ req, a = .createClaim req
    · obtain ⟨req, rfl⟩ := hclaim
      exact createClaim_spaced hhash req htabled hc hL
    · exact serve_spaced (fun req heq => hclaim ⟨req, heq⟩) htabled hc hL ha

theorem addressSpaceDigest_nil (hash : Scope.Text → String) (tenant tenant' : String) :
    addressSpaceDigest hash tenant [] = addressSpaceDigest hash tenant' [] := by
  apply congrArg hash
  rw [Scope.canonicalAddressSpace_inj]
  refine ⟨fun _ => rfl, ?_⟩
  rintro ⟨role, hrole⟩
  exact absurd rfl hrole

theorem Grant.digest_eq {g g' : Grant} {p p' : Scope × String}
    (hp : projectAddressSpaceDigest hash g.tenant g.scope g.uniqueWithin "uniqueWithin" = .ok p)
    (hp' : projectAddressSpaceDigest hash g'.tenant g'.scope g'.uniqueWithin "uniqueWithin" = .ok p') :
    ∃ space space', g.space = .ok space ∧ g'.space = .ok space' ∧ (space = space' → p.2 = p'.2) := by
  simp only [projectAddressSpaceDigest, Grant.space] at hp hp' ⊢
  cases hq : projectFor g.scope g.uniqueWithin "uniqueWithin" with
  | error e =>
    rw [hq] at hp
    cases hp
  | ok q =>
    cases hq' : projectFor g'.scope g'.uniqueWithin "uniqueWithin" with
    | error e =>
      rw [hq'] at hp'
      cases hp'
    | ok q' =>
      rw [hq] at hp
      rw [hq'] at hp'
      obtain rfl := Except.ok.inj hp
      obtain rfl := Except.ok.inj hp'
      refine ⟨_, _, rfl, rfl, ?_⟩
      intro heq
      have hproject : q = q' := by
        have hmap := congrArg (List.map fun e : (String × String) × ScopeRef => (e.1.2, e.2)) heq
        rw [List.map_map, List.map_map] at hmap
        exact (List.map_id q).symm.trans (hmap.trans (List.map_id q'))
      subst hproject
      cases q with
      | nil => exact addressSpaceDigest_nil hash _ _
      | cons e rest =>
        simp only [List.map_cons, List.cons.injEq, Prod.mk.injEq, and_true] at heq
        exact congrArg (fun tenant => addressSpaceDigest hash tenant (e :: rest)) heq.1

/-- Two blocks of a pool that meet were handed out under classes unique within the same roles, to claims whose scopes
differ there. -/
theorem blocks_apart (hhash : Function.Injective hash) (hs : SpaceRun hash h) :
    ∀ r ∈ h.db.rows, ∀ o ∈ h.db.rows, r ≠ o → r.purpose = .claim → o.purpose = .claim →
      Key.resource r.allocationKey = some .ipallocations → Key.resource o.allocationKey = some .ipallocations →
      r.poolKey = o.poolKey → r.cidr.overlaps o.cidr = true →
      ∃ grant grant' space space', h.granted r.allocationKey = some grant ∧ h.granted o.allocationKey = some grant' ∧
        (∀ role, role ∈ grant.uniqueWithin ↔ role ∈ grant'.uniqueWithin) ∧ grant.space = .ok space ∧
        grant'.space = .ok space' ∧ space ≠ space' := by
  obtain ⟨hc, hapart, hL⟩ := run_spaced hhash hs
  intro r hr o ho hne _ _ hbacks hbacks' hpool hmeet
  obtain ⟨grant, p, hrecorded⟩ := hL.recorded r hr hbacks
  obtain ⟨grant', p', hrecorded'⟩ := hL.recorded o ho hbacks'
  obtain ⟨space, space', hspace, hspace', hdigest⟩ := Grant.digest_eq hrecorded.space_eq hrecorded'.space_eq
  refine ⟨grant, grant', space, space', hrecorded.grant_eq, hrecorded'.grant_eq, ?_, hspace, hspace', ?_⟩
  · exact hL.blocks r hr hbacks o ho hbacks' hpool grant grant' hrecorded.grant_eq hrecorded'.grant_eq
  · intro heq
    have hsame : r.scopeDigest = o.scopeDigest := by
      rw [hrecorded.digest, hrecorded'.digest, hdigest heq]
    have hkey : r.allocationKey ≠ o.allocationKey := fun hkey => hne (hc.keyed.eq_of_allocationKey hr ho hkey)
    rw [hapart r hr o ho hpool hkey hsame] at hmeet
    cases hmeet

end

def parentless (e : Key × Object) : Bool :=
  match e.2 with
  | .class_ c => c.parentClassName.isNone
  | _ => true

theorem Coherent.of_parentless {hash : Scope.Text → String} {granted : Key → Option Grant} {s : Db} {k : Key} {o : Object}
    (hobjects : s.objects.all parentless = true) (hrows : s.rows = [])
    (ho : parentless (k, o) = true) : Coherent hash granted (s.ledger.put k o) := by
  have hroot : ∀ c x, Defined (s.ledger.put k o) c → ¬ ParentOf (s.ledger.put k o) c x := by
    intro c x hc hx
    obtain ⟨name, hname, -⟩ := hx.names
    have hnone : c.spec.parentClassName.isNone = true := by
      obtain ⟨-, rfl⟩ | ⟨-, hold⟩ := Ledger.put_objects.mp hc.stored
      · exact ho
      · obtain ⟨o', ho', hcore⟩ := Option.map_eq_some_iff.mp hold
        cases o' with
        | class_ c' =>
          obtain rfl := Object.class_.inj hcore
          exact List.all_eq_true.mp hobjects _ (mem_of_lookup ho')
        | pool | claim | allocation => cases hcore
    rw [hname] at hnone
    cases hnone
  refine ⟨?_, ?_, ?_⟩
  · exact fun c c' x x' hc _ hx => absurd hx (hroot c x hc)
  · rintro c c' k' - ⟨hc', _, _, upper, hparent, -⟩
    exact absurd hparent (hroot c' _ hc')
  · intro r hr
    change r ∈ s.rows at hr
    rw [hrows] at hr
    cases hr

def tenantsHistory : GrantHistory :=
  (GrantHistory.start.serve byteChars (.createClass tenantsRequest)).serve byteChars (.createPool (hostsPoolRequest 0))

def redRequest : ClaimRequest :=
  { blueRequest with
    name := "mail"
    claim := { blueRequest.claim with scope := [("network", ⟨"net", "Network", "red"⟩)] } }

def networksHistory : GrantHistory :=
  (tenantsHistory.serve byteChars (.createClaim blueRequest)).serve byteChars (.createClaim redRequest)

theorem networksHistory_run : SpaceRun byteChars networksHistory := by
  refine .serve _ (.serve _ (.serve _ (.serve _ .start ?_) ?_) trivial) trivial
  · exact fun _ => .of_parentless (by decide) rfl rfl
  · exact fun _ => .of_parentless (by decide +kernel) (by decide +kernel) rfl

theorem blocks_apart_networks :
    Function.Injective byteChars ∧ SpaceRun byteChars networksHistory ∧ ∃ r ∈ networksHistory.db.rows,
      ∃ o ∈ networksHistory.db.rows, r ≠ o ∧ r.cidr.overlaps o.cidr = true ∧ ∃ grant grant' space space',
        networksHistory.granted r.allocationKey = some grant ∧ networksHistory.granted o.allocationKey = some grant' ∧
        (∀ role, role ∈ grant.uniqueWithin ↔ role ∈ grant'.uniqueWithin) ∧ grant.space = .ok space ∧
        grant'.space = .ok space' ∧ space ≠ space' := by
  have hrows : ∃ r ∈ networksHistory.db.rows, ∃ o ∈ networksHistory.db.rows, r ≠ o ∧ r.purpose = .claim ∧
      o.purpose = .claim ∧ Key.resource r.allocationKey = some .ipallocations ∧
      Key.resource o.allocationKey = some .ipallocations ∧ r.poolKey = o.poolKey ∧ r.cidr.overlaps o.cidr = true := by
    decide +kernel
  obtain ⟨r, hr, o, ho, hne, hclaim, hclaim', hkey, hkey', hpool, hmeet⟩ := hrows
  exact ⟨byteChars_injective, networksHistory_run, r, hr, o, ho, hne, hmeet, blocks_apart byteChars_injective
    networksHistory_run r hr o ho hne hclaim hclaim' hkey hkey' hpool hmeet⟩

def recreatedHistory : GrantHistory :=
  ((((tenantsHistory.serve byteChars (.createClaim blueRequest)).serve byteChars
    (.deleteClass "infra" "hosts" true [])).serve byteChars (.createClass hostsClassRequest)).serve byteChars
      (.createClaim { hostsRequest none with name := "mail" }))

theorem blocks_shared :
    Served (GrantHistory.serve byteChars) (fun _ _ => True) GrantHistory.start recreatedHistory ∧
      ∃ r ∈ recreatedHistory.db.rows, ∃ o ∈ recreatedHistory.db.rows, r ≠ o ∧ r.purpose = .claim ∧
        o.purpose = .claim ∧ Key.resource r.allocationKey = some .ipallocations ∧
        Key.resource o.allocationKey = some .ipallocations ∧ r.poolKey = o.poolKey ∧ r.cidr.overlaps o.cidr = true ∧
        (recreatedHistory.granted r.allocationKey).map Grant.uniqueWithin = some ["network"] ∧
        (recreatedHistory.granted o.allocationKey).map Grant.uniqueWithin = some [] := by
  refine ⟨?_, by decide +kernel⟩
  exact .serve _ (.serve _ (.serve _ (.serve _ (.serve _ (.serve _ .start trivial) trivial) trivial) trivial) trivial)
    trivial

end Ipam.Registry
