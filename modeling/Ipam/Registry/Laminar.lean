import Ipam.Lib.Forests
import Ipam.Registry.Withdrawn

namespace Ipam.Registry

open Allocation Allocator Cascade Database Transaction

def Under (L : Ledger) (k k' : Key) : Prop :=
  ∃ r ∈ carves L, r.allocationKey = k ∧ r.poolKey = k' ∧ lineage L k = some (some (keyName k'), some r.cidr)

def Forested (L : Ledger) : Prop :=
  ∀ k line, lineage L k = some line →
    ∃ root range, Relation.ReflTransGen (Under L) k root ∧ lineage L root = some (none, range)

section

variable {tidy : Prop} {L L' : Ledger} {k : Key} {line : Option String × Option Cidr}

theorem lineage_poolKey (hc : Consistent L) {r : Row} (hr : r ∈ carves L) : ∃ line, lineage L r.poolKey = some line := by
  obtain ⟨r, ⟨hr, -⟩, rfl⟩ := hr
  obtain ⟨pool, range, hstored, -⟩ := hc.pools r hr
  exact ⟨_, lineage_stored hstored⟩

theorem PoolChange.kept {line' : Option String × Option Cidr} (h : PoolChange tidy L L') (hold : lineage L k = some line)
    (hstays : lineage L' k = some line') :
    line' = line ∧ ∀ r ∈ carves L, r.allocationKey = k → r ∈ carves L' := by
  cases h with
  | cut gone hkept haway _ hrows _ =>
    have hk : ¬ gone k := fun hgone => by
      rw [haway k hgone] at hstays
      cases hstays
    rw [hkept k hk, hold] at hstays
    exact ⟨(Option.some.inj hstays).symm, fun r hr hkey => hrows r hr (hkey ▸ hk)⟩
  | @root k' range habsent hlines hrows =>
    have hk : k ≠ k' := by
      rintro rfl
      rw [habsent] at hold
      cases hold
    rw [hlines, Function.update_of_ne hk, hold] at hstays
    exact ⟨(Option.some.inj hstays).symm, fun r hr _ => hrows ▸ hr⟩
  | @plant row _ habsent _ hlines hrows =>
    have hk : k ≠ row.allocationKey := by
      rintro rfl
      rw [habsent] at hold
      cases hold
    rw [hlines, Function.update_of_ne hk, hold] at hstays
    exact ⟨(Option.some.inj hstays).symm, fun r hr _ => hrows ▸ Set.mem_insert_of_mem _ hr⟩

theorem PoolChange.fresh (h : PoolChange tidy L L') (hnew : lineage L' k = some line) (hnone : lineage L k = none) :
    line.1 = none ∨ ∃ k', Under L' k k' ∧ ∃ line', lineage L k' = some line' := by
  cases h with
  | cut gone hkept haway _ _ _ =>
    by_cases hk : gone k
    · rw [haway k hk] at hnew
      cases hnew
    · rw [hkept k hk, hnone] at hnew
      cases hnew
  | @root k' range _ hlines _ =>
    rw [hlines, Function.update_apply] at hnew
    split at hnew
    · obtain rfl := Option.some.inj hnew
      exact .inl rfl
    · rw [hnone] at hnew
      cases hnew
  | @plant row line' _ hsource hlines hrows =>
    by_cases hk : k = row.allocationKey
    · subst hk
      refine .inr ⟨row.poolKey, ⟨row.unclaimed, ?_, rfl, rfl, ?_⟩, line', hsource⟩
      · exact hrows ▸ Set.mem_insert _ _
      · rw [hlines]
        exact Function.update_self _ _ _
    · rw [hlines, Function.update_of_ne hk, hnone] at hnew
      cases hnew

theorem PoolChange.forested (h : PoolChange tidy L L') (hc : Consistent L) (hc' : Consistent L') (hL : Forested L) :
    Forested L' := by
  let kept := fun k => ∃ line, lineage L k = some line ∧ lineage L' k = some line
  have hkept : ∀ k k', kept k → Under L k k' → Under L' k k' ∧ kept k' := by
    rintro k _ ⟨line, hold, hstays⟩ ⟨r, hr, hkey, rfl, hrange⟩
    have hr' := (h.kept hold hstays).2 r hr hkey
    obtain ⟨line₁, hline₁⟩ := lineage_poolKey hc hr
    obtain ⟨line₂, hline₂⟩ := lineage_poolKey hc' hr'
    obtain rfl := (h.kept hline₁ hline₂).1
    refine ⟨⟨r, hr', hkey, rfl, ?_⟩, _, hline₁, hline₂⟩
    rw [hstays, ← hold, hrange]
  have hbranch : ∀ k, kept k → ∃ root range, Relation.ReflTransGen (Under L') k root ∧
      lineage L' root = some (none, range) := by
    rintro k ⟨line, hold, hstays⟩
    obtain ⟨root, range, hpath, hroot⟩ := hL k line hold
    obtain ⟨hpath', line', hline', hroot'⟩ := Forests.branch_kept hkept ⟨line, hold, hstays⟩ hpath
    obtain rfl := Option.some.inj (hroot.symm.trans hline')
    exact ⟨root, range, hpath', hroot'⟩
  intro k line hstays
  cases hold : lineage L k with
  | some line' =>
    obtain rfl := (h.kept hold hstays).1
    exact hbranch k ⟨line, hold, hstays⟩
  | none =>
    obtain hroot | ⟨k', hunder, line', hline'⟩ := h.fresh hstays hold
    · obtain ⟨parent, range⟩ := line
      obtain rfl : parent = none := hroot
      exact ⟨k, range, .refl, hstays⟩
    · obtain ⟨r, hr, hkey, rfl, hrange⟩ := hunder
      obtain ⟨line₂, hline₂⟩ := lineage_poolKey hc' hr
      obtain rfl := (h.kept hline' hline₂).1
      obtain ⟨root, range, hpath, hroot⟩ := hbranch r.poolKey ⟨_, hline', hline₂⟩
      exact ⟨root, range, hpath.head ⟨r, hr, hkey, rfl, hrange⟩, hroot⟩

end

section

variable {hash : Scope.Text → String} {L L' : Ledger} {a : Action}

theorem Change.throughCreate (h : Change hash L a L') (ha : a.ThroughCreate L) : a.ThroughCreate L' := by
  cases h with
  | forcePool _ habsent => exact absurd habsent ha
  | @updatePool req force _ _ _ =>
    cases force with
    | false => trivial
    | true => simp [Action.ThroughCreate, Ledger.put]
  | _ => trivial

end

def OfPools (r o : Row) : Prop :=
  Row.OfPool r ∧ Row.OfPool o

structure Grounded (L : Ledger) : Prop where
  keys : ∀ k pool, L.objects k = some (.pool pool) → ∃ project name, k = poolStorageKey project name
  texts : ∀ k pool, L.objects k = some (.pool pool) → pool.parentPoolRef = none →
    ∃ cidr p, pool.cidr = some cidr ∧ cidr.string = some p ∧ pool.allocatedCIDR = some p
  apart : ∀ project name name' pool pool' p p', Tenant.SeesOwn project.toList →
    L.objects (poolStorageKey project name) = some (.pool pool) →
    L.objects (poolStorageKey project name') = some (.pool pool') → name ≠ name' → pool.parentPoolRef = none →
    pool'.parentPoolRef = none → pool.allocatedCIDR = some p → pool'.allocatedCIDR = some p' → p.overlaps p' = false

section

variable {hash : Scope.Text → String} {L L' : Ledger} {a : Action}

theorem ofPools_unclaiming : Unclaiming OfPools := by
  have hof : ∀ {r r' : Row}, r.unclaimed = r'.unclaimed → Row.OfPool r → Row.OfPool r' := by
    intro r r' heq hr
    have hkey : r.unclaimed.allocationKey = r'.unclaimed.allocationKey := congrArg Row.allocationKey heq
    simp only [Row.unclaimed] at hkey
    simpa only [Row.OfPool, hkey] using hr
  exact ⟨And.symm, fun hr ho => And.imp (hof hr) (hof ho)⟩

theorem Growth.siblings (h : Growth hash L a L') (hr : Ranged L) (hs : Shaped (emptySpace hash) L)
    (hL : ApartFor OfPools L) : ApartFor OfPools L' := by
  cases h with
  | nothing hshrinks => exact hL.shrinks ofPools_unclaiming hshrinks
  | class_ _ _ _ hledger =>
    rw [hledger]
    exact hL
  | pool _ _ _ hledger =>
    rw [hledger]
    exact hL
  | @child req parent mid carved pool block b _ _ _ htaken _ hledger =>
    have hcarved : ApartFor OfPools carved := by
      refine hL.taken ofPools_unclaiming hr htaken (row_of_request _ _ b) ?_
      intro o ho _ hrelated
      cases hs.rows o ho with
      | reservation heq =>
        rw [heq]
        simp [Row.blocks, reservationRow]
      | carve hpurpose _ _ _ _ => simp [Row.blocks, hpurpose]
      | child _ _ _ _ hdigest _ => simp [Row.blocks, hdigest]
      | block _ hkey _ =>
        have hof := hrelated.1
        rw [Row.OfPool, hkey] at hof
        cases hof
    rw [hledger]
    exact hcarved
  | provision _ _ _ _ hprov => exact hL.provisioned ofPools_unclaiming hr hprov
  | @block req class_ poolKey n space mid carved pool block b _ _ _ _ _ htaken hrest =>
    have hcarved : ApartFor OfPools carved := by
      refine hL.taken ofPools_unclaiming hr htaken (row_of_request _ _ b) ?_
      intro o _ _ hrelated
      have hof := hrelated.2
      cases hof
    exact hcarved.shrinks ofPools_unclaiming hrest

theorem contains_of_string {cidr : IPNet} {p : Cidr} (h : cidr.string = some p) (ip : IP) :
    cidr.contains ip = p.net.contains ip := by
  simp only [IPNet.string] at h
  split at h
  · obtain rfl := Option.some.inj h
    simp only [IPNet.contains, Cidr.networkNumberAndMask_net]
  · cases h

theorem overlaps_of_string {c d : IPNet} {p q : Cidr} (hc : c.string = some p) (hd : d.string = some q)
    (h : cidrsOverlap c d = false) : p.overlaps q = false := by
  by_contra hover
  rw [Bool.not_eq_false] at hover
  obtain ⟨ip, hp, hq⟩ : ∃ ip, p.net.contains ip = true ∧ q.net.contains ip = true := by
    cases Cidr.within_or_within hover with
    | inl hwithin =>
      have hself : p.Mem p.family p.addr := ⟨rfl, le_rfl, p.addr_le_last⟩
      exact ⟨p.net.ip, (Cidr.contains_net_ip p p).mpr hself, (Cidr.contains_net_ip q p).mpr (hself.of_within hwithin)⟩
    | inr hwithin =>
      have hself : q.Mem q.family q.addr := ⟨rfl, le_rfl, q.addr_le_last⟩
      exact ⟨q.net.ip, (Cidr.contains_net_ip p q).mpr (hself.of_within hwithin), (Cidr.contains_net_ip q q).mpr hself⟩
  rw [← contains_of_string hc] at hp
  rw [← contains_of_string hd] at hq
  rw [cidrsOverlap_of_meet hp hq] at h
  cases h

namespace Grounded

theorem shrinks (h : Grounded L) (hs : Shrinks L L') : Grounded L' := by
  have hold : ∀ k pool', L'.objects k = some (.pool pool') → ∃ pool, L.objects k = some (.pool pool) ∧
      pool'.parentPoolRef = pool.parentPoolRef ∧ pool'.cidr = pool.cidr ∧ pool'.allocatedCIDR = pool.allocatedCIDR := by
    intro k pool' hpool'
    obtain ⟨pool, hpool, rfl | hedit⟩ := hs.pools k pool' hpool'
    · exact ⟨pool', hpool, rfl, rfl, rfl⟩
    · exact ⟨pool, hpool, hedit.parentPoolRef, hedit.cidr, hedit.allocatedCIDR⟩
  refine ⟨?_, ?_, ?_⟩
  · intro k pool' hpool'
    obtain ⟨pool, hpool, -⟩ := hold k pool' hpool'
    exact h.keys k pool hpool
  · intro k pool' hpool' hroot
    obtain ⟨pool, hpool, hparent, hcidr, hrange⟩ := hold k pool' hpool'
    rw [hcidr, hrange]
    exact h.texts k pool hpool (hparent ▸ hroot)
  · intro project name name' pool pool' p p' hsees hpool hpool' hne hroot hroot' hp hp'
    obtain ⟨old, hold₁, hparent, -, hrange⟩ := hold _ pool hpool
    obtain ⟨old', hold₂, hparent', -, hrange'⟩ := hold _ pool' hpool'
    exact h.apart project name name' old old' p p' hsees hold₁ hold₂ hne (hparent ▸ hroot) (hparent' ▸ hroot')
      (hrange ▸ hp) (hrange' ▸ hp')

theorem of_pools (h : Grounded L)
    (hpools : ∀ k pool, L'.objects k = some (.pool pool) → L.objects k = some (.pool pool)) : Grounded L' :=
  ⟨fun k pool hpool => h.keys k pool (hpools k pool hpool), fun k pool hpool => h.texts k pool (hpools k pool hpool),
    fun project name name' pool pool' p p' hsees hpool hpool' =>
      h.apart project name name' pool pool' p p' hsees (hpools _ pool hpool) (hpools _ pool' hpool')⟩

theorem put_child {k : Key} {pool : IPPool} (h : Grounded L) (hk : ∃ project name, k = poolStorageKey project name)
    (hparent : pool.parentPoolRef ≠ none) : Grounded (L.put k (.pool pool)) := by
  have hroot : ∀ k' pool', (L.put k (.pool pool)).objects k' = some (.pool pool') → pool'.parentPoolRef = none →
      L.objects k' = some (.pool pool') := by
    intro k' pool' hpool' hroot
    obtain ⟨-, hnew⟩ | ⟨-, hold⟩ := Ledger.put_objects.mp hpool'
    · obtain rfl := Object.pool.inj hnew
      exact absurd hroot hparent
    · exact hold
  refine ⟨?_, ?_, ?_⟩
  · intro k' pool' hpool'
    obtain ⟨rfl, -⟩ | ⟨-, hold⟩ := Ledger.put_objects.mp hpool'
    · exact hk
    · exact h.keys k' pool' hold
  · exact fun k' pool' hpool' hnone => h.texts k' pool' (hroot k' pool' hpool' hnone) hnone
  · intro project name name' p q _ _ hsees hp hq hne hrootp hrootq
    exact h.apart project name name' p q _ _ hsees (hroot _ p hp hrootp) (hroot _ q hq hrootq) hne hrootp hrootq

theorem put_root {req : PoolRequest} (h : Grounded L) (hroot : req.pool.parentPoolRef = none)
    (hvalid : validateIPPool (preparePoolForCreate req.pool) = true) (hapart : RootApart L req)
    (hunmapped : req.Unmapped) : Grounded (L.put req.key (.pool (preparePoolForCreate req.pool).core)) := by
  have hcore := preparePoolForCreate_core req.pool
  have hcidr : ∃ cidr p, req.pool.cidr = some cidr ∧ cidr.string = some p := by
    have hchecked : validateIPPool (preparePoolForCreate req.pool).core = true := hvalid
    rw [hcore] at hchecked
    simp only [validateIPPool, hroot, Bool.and_eq_true] at hchecked
    obtain ⟨cidr, hcidr⟩ := Option.isSome_iff_exists.mp hchecked.1.1.1.2
    obtain ⟨p, hp, -⟩ := hunmapped cidr hcidr
    exact ⟨cidr, p, hcidr, hp⟩
  obtain ⟨cidr, p, hcidr, hp⟩ := hcidr
  have hnew : (preparePoolForCreate req.pool).core.parentPoolRef = none ∧
      (preparePoolForCreate req.pool).core.cidr = some cidr ∧
      (preparePoolForCreate req.pool).core.allocatedCIDR = some p := by
    rw [hcore]
    simp [hroot, hcidr, hp]
  -- the new pool against one that was there
  have hother : Tenant.SeesOwn req.project.toList → ∀ name pool q, name ≠ req.name → L.objects (poolStorageKey req.project name) = some (.pool pool) →
      pool.parentPoolRef = none → pool.allocatedCIDR = some q → p.overlaps q = false := by
    intro hsees name pool q hne hpool hpoolRoot hq
    obtain ⟨cidr', q', hcidr', hq', hrange'⟩ := h.texts _ pool hpool hpoolRoot
    obtain rfl := Option.some.inj (hrange'.symm.trans hq)
    exact overlaps_of_string hp hq' (hapart hsees "" name pool cidr' cidr hpool hne hpoolRoot hcidr' hcidr)
  refine ⟨?_, ?_, ?_⟩
  · intro k pool hpool
    obtain ⟨rfl, -⟩ | ⟨-, hold⟩ := Ledger.put_objects.mp hpool
    · exact ⟨req.project, req.name, rfl⟩
    · exact h.keys k pool hold
  · intro k pool hpool hpoolRoot
    obtain ⟨-, heq⟩ | ⟨-, hold⟩ := Ledger.put_objects.mp hpool
    · obtain rfl := Object.pool.inj heq
      exact ⟨cidr, p, hnew.2.1, hp, hnew.2.2⟩
    · exact h.texts k pool hold hpoolRoot
  · intro project name name' pool pool' q q' hsees hpool hpool' hne hpoolRoot hpoolRoot' hq hq'
    obtain ⟨hkey, heq⟩ | ⟨-, hold⟩ := Ledger.put_objects.mp hpool
    · obtain rfl := Object.pool.inj heq
      obtain rfl := Option.some.inj (hnew.2.2.symm.trans hq)
      obtain ⟨rfl, -, -, rfl⟩ := Key.object.inj hkey
      obtain ⟨hkey', -⟩ | ⟨-, hold'⟩ := Ledger.put_objects.mp hpool'
      · obtain ⟨-, -, -, rfl⟩ := Key.object.inj hkey'
        exact absurd rfl hne
      · exact hother hsees name' pool' q' hne.symm hold' hpoolRoot' hq'
    · obtain ⟨hkey', heq'⟩ | ⟨-, hold'⟩ := Ledger.put_objects.mp hpool'
      · obtain rfl := Object.pool.inj heq'
        obtain rfl := Option.some.inj (hnew.2.2.symm.trans hq')
        obtain ⟨rfl, -, -, rfl⟩ := Key.object.inj hkey'
        rw [Cidr.overlaps_comm]
        exact hother hsees name pool q hne hold hpoolRoot hq
      · exact h.apart project name name' pool pool' q q' hsees hold hold' hne hpoolRoot hpoolRoot' hq hq'

end Grounded

theorem Growth.grounded (h : Growth hash L a L') (hL : Grounded L) (ha : a.Unmapped) (hcreate : a.ThroughCreate L) :
    Grounded L' := by
  cases h with
  | nothing hshrinks => exact hL.shrinks hshrinks
  | class_ _ _ habsent hledger =>
    rw [hledger]
    apply hL.of_pools
    intro k pool hpool
    obtain ⟨-, hnew⟩ | ⟨-, hold⟩ := Ledger.put_objects.mp hpool
    · cases hnew
    · exact hold
  | @pool req haction hvalid habsent hledger =>
    obtain ⟨rfl, hroot, hapart⟩ | rfl := haction
    · rw [hledger]
      exact hL.put_root hroot hvalid hapart ha
    · exact absurd habsent hcreate
  | @child req parent mid carved pool block b _ href _ htaken _ hledger =>
    have hcarved : Grounded carved := by
      apply hL.of_pools
      rw [(taken_objects htaken).1]
      exact fun _ _ hpool => hpool
    rw [hledger]
    refine hcarved.put_child ⟨req.project, req.name, rfl⟩ ?_
    have hparent := congrArg IPPool.parentPoolRef (preparePoolForCreate_core req.pool)
    intro hnone
    have hnone' := hparent.symm.trans hnone
    rw [href] at hnone'
    cases hnone'
  | @provision req level source n mid carved pool block b _ hplan _ _ hprov =>
    have hput : Grounded (L.put level.poolKey (.pool (newProvisionedPool level (keyName source) n block).core)) := by
      refine hL.put_child ⟨level.class_.project, level.poolName, (planLevel_class hplan).2.2.2⟩ ?_
      exact fun hnone => nomatch hnone
    apply hput.of_pools
    rw [hprov.objects.1]
    exact fun _ _ hpool => hpool
  | block _ _ _ _ _ htaken hrest =>
    refine Grounded.shrinks ?_ hrest
    apply hL.of_pools
    rw [(taken_objects htaken).1]
    exact fun _ _ hpool => hpool

end

def rangeOf (L : Ledger) (k : Key) : Set (Family × ℕ) :=
  {x | ∃ parent p, lineage L k = some (parent, some p) ∧ p.Mem x.1 x.2}

section

variable {L : Ledger} {k k' : Key}

theorem mem_rangeOf_of_row (hc : Consistent L) (hr : Ranged L) {r : Row} (hrow : r ∈ L.rows) {x : Family × ℕ}
    (hx : r.cidr.Mem x.1 x.2) : x ∈ rangeOf L r.poolKey := by
  obtain ⟨pool, range, hstored, hrange⟩ := hc.pools r hrow
  cases hp : pool.allocatedCIDR with
  | none =>
    simp only [IPPool.range, hp, hr.derived _ pool hstored hp] at hrange
    cases hrange
  | some p =>
    refine ⟨pool.parentPoolRef, p, ?_, ?_⟩
    · rw [lineage_stored hstored, Object.lineage, hp]
    · exact hx.of_within ((hr.rows r hrow pool p hstored hp).within (hr.unmapped _ pool p hstored hp))

theorem Under.row (h : Under L k k') : ∃ r ∈ L.rows, Row.OfPool r ∧ r.allocationKey = k ∧ r.poolKey = k' ∧
    lineage L k = some (some (keyName k'), some r.cidr) := by
  obtain ⟨_, ⟨r, ⟨hr, hof⟩, rfl⟩, hkey, hpool, hline⟩ := h
  exact ⟨r, hr, hof, hkey, hpool, hline⟩

theorem Under.nested (hc : Consistent L) (hr : Ranged L) (h : Under L k k') : rangeOf L k ⊆ rangeOf L k' := by
  obtain ⟨r, hrow, -, -, rfl, hline⟩ := h.row
  rintro x ⟨parent, p, hp, hx⟩
  obtain ⟨-, rfl⟩ : parent = some (keyName r.poolKey) ∧ p = r.cidr := by
    rw [hline] at hp
    simpa [eq_comm] using hp
  exact mem_rangeOf_of_row hc hr hrow hx

theorem Under.sibling (hapart : ApartFor OfPools L) {a b p : Key} (ha : Under L a p)
    (hb : Under L b p) (hmeet : (rangeOf L a ∩ rangeOf L b).Nonempty) : a = b := by
  obtain ⟨r, hr, hof, rfl, rfl, hline⟩ := ha.row
  obtain ⟨o, ho, hof', rfl, hpool, hline'⟩ := hb.row
  obtain ⟨x, ⟨parent, p, hp, hx⟩, parent', q, hq, hx'⟩ := hmeet
  obtain ⟨-, rfl⟩ : parent = some (keyName r.poolKey) ∧ p = r.cidr := by
    rw [hline] at hp
    simpa [eq_comm] using hp
  obtain ⟨-, rfl⟩ : parent' = some (keyName r.poolKey) ∧ q = o.cidr := by
    rw [hline'] at hq
    simpa [eq_comm] using hq
  by_contra hne
  have hfalse := hapart r hr o ho hpool.symm hne ⟨hof, hof'⟩
  rw [(r.cidr.overlaps_iff_mem o.cidr).mpr ⟨x.1, x.2, hx, hx'⟩] at hfalse
  cases hfalse

theorem stored_of_lineage {line : Option String × Option Cidr} (h : lineage L k = some line) :
    ∃ pool, L.objects k = some (.pool pool) ∧ line = (pool.parentPoolRef, pool.allocatedCIDR) := by
  obtain ⟨o, ho, hline⟩ := Option.bind_eq_some_iff.mp h
  cases o with
  | pool pool => exact ⟨pool, ho, (Option.some.inj hline).symm⟩
  | class_ | claim | allocation => cases hline

theorem Grounded.root {project name name' : String} {range range' : Option Cidr} (h : Grounded L)
    (hsees : Tenant.SeesOwn project.toList)
    (hroot : lineage L (poolStorageKey project name) = some (none, range))
    (hroot' : lineage L (poolStorageKey project name') = some (none, range'))
    (hmeet : (rangeOf L (poolStorageKey project name) ∩ rangeOf L (poolStorageKey project name')).Nonempty) :
    poolStorageKey project name = poolStorageKey project name' := by
  obtain ⟨x, ⟨parent, p, hp, hx⟩, parent', q, hq, hx'⟩ := hmeet
  obtain ⟨pool, hpool, hline⟩ := stored_of_lineage hp
  obtain ⟨pool', hpool', hline'⟩ := stored_of_lineage hq
  obtain ⟨rfl, hrange⟩ := Prod.mk.inj hline
  obtain ⟨rfl, hrange'⟩ := Prod.mk.inj hline'
  rw [hp] at hroot
  rw [hq] at hroot'
  by_contra hne
  have hfalse := h.apart project name name' pool pool' p q hsees hpool hpool' (fun heq => hne (by rw [heq]))
    (Prod.mk.inj (Option.some.inj hroot)).1 (Prod.mk.inj (Option.some.inj hroot')).1 hrange.symm hrange'.symm
  rw [(p.overlaps_iff_mem q).mpr ⟨x.1, x.2, hx, hx'⟩] at hfalse
  cases hfalse

end

def ParentPool (s : Db) (k k' : Key) : Prop :=
  ∃ pool r, s.pool k = some pool ∧ pool.parentPoolRef = some (keyName k') ∧ r ∈ s.rows ∧ r.allocationKey = k ∧
    r.poolKey = k'

def RootedIn (s : Db) (project : String) (k : Key) : Prop :=
  ∃ name pool, Relation.ReflTransGen (ParentPool s) k (poolStorageKey project name) ∧
    s.pool (poolStorageKey project name) = some pool ∧ pool.parentPoolRef = none

def PoolHolds (s : Db) (k : Key) (ip : IP) : Prop :=
  ∃ pool range, s.pool k = some pool ∧ IPPool.range pool = some range ∧ range.contains ip = true

/-- The runs over ranges outside the IPv4-mapped range in which pools are created by Create only. -/
abbrev ForestRun (hash : Scope.Text → String) : Db → Prop :=
  Served (serve hash) (fun a s => a.Unmapped ∧ a.ThroughCreate s.ledger) Db.empty

structure Laminar (ed : String) (L : Ledger) : Prop where
  shaped : Shaped ed L
  ranged : Ranged L
  holding : Holding L
  forested : Forested L
  siblings : ApartFor OfPools L
  grounded : Grounded L

section

variable {hash : Scope.Text → String} {s : Db} {k k' : Key}

theorem served_laminar (hs : ForestRun hash s) : Consistent s.ledger ∧ Laminar (emptySpace hash) s.ledger := by
  refine (@served_inv hash s (Laminar (emptySpace hash)) (fun a L => a.Unmapped ∧ a.ThroughCreate L) ?_ ?_ hs).2
  · refine ⟨shaped_empty _, ranged_empty, ?_, ?_, ?_, ⟨?_, ?_, ?_⟩⟩
    · simp [Holding, Db.ledger, Db.empty]
    · simp [Forested, lineage, Db.ledger, Db.empty, Db.object]
    · simp [ApartFor, Db.ledger, Db.empty]
    · simp [Db.ledger, Db.empty, Db.object]
    · simp [Db.ledger, Db.empty, Db.object]
    · simp [Db.ledger, Db.empty, Db.object]
  · rintro a L L' hc ⟨hshaped, hr, hholding, hforested, hsiblings, hgrounded⟩ ha h
    have hstep := h.poolStep hc hshaped hholding ha.2
    exact ⟨⟨h.shaped hc hshaped, h.growth.ranged hc hr ha.1, hstep.holding,
      hstep.change.forested hc (h.consistent hc) hforested, h.growth.siblings hr hshaped hsiblings,
      h.growth.grounded hgrounded ha.1 ha.2⟩, ha.1, h.throughCreate ha.2⟩

theorem parentPool_iff (hc : Consistent s.ledger) (h : Forested s.ledger) :
    ParentPool s k k' ↔ Under s.ledger k k' := by
  constructor
  · rintro ⟨pool, r, hpool, hparent, hr, hkey, rfl⟩
    have hline := lineage_of_pool hpool
    obtain ⟨root, range, hpath, hroot⟩ := h k _ hline
    obtain rfl | ⟨k₁, hunder, -⟩ := hpath.cases_head
    · rw [hline, hparent] at hroot
      cases hroot
    · obtain ⟨o, ho, -, hkey', rfl, -⟩ := hunder.row
      obtain rfl := hc.keyed.eq_of_allocationKey hr ho (hkey.trans hkey'.symm)
      exact hunder
  · intro hunder
    obtain ⟨r, hr, -, hkey, hpool, hline⟩ := hunder.row
    obtain ⟨pool, hstored⟩ := pool_of_lineage hline
    rw [lineage_of_pool hstored] at hline
    exact ⟨pool, r, hstored, (Prod.mk.inj (Option.some.inj hline)).1, hr, hkey, hpool⟩

theorem poolHolds_iff (hr : Ranged s.ledger) {ip : IP} :
    PoolHolds s k ip ↔ ip.shortest ∈ rangeOf s.ledger k := by
  constructor
  · rintro ⟨pool, range, hpool, hrange, hip⟩
    have hstored := pool_of_ledger hpool
    cases hp : pool.allocatedCIDR with
    | none =>
      have hcidr : pool.cidr = none := hr.derived k pool.core hstored hp
      simp only [IPPool.range, hp, hcidr] at hrange
      cases hrange
    | some p =>
      simp only [IPPool.range, hp] at hrange
      obtain rfl := Option.some.inj hrange
      refine ⟨pool.parentPoolRef, p, ?_, (p.contains_net ip).mp hip⟩
      rw [lineage_of_pool hpool, hp]
  · rintro ⟨parent, p, hline, hip⟩
    obtain ⟨pool, hpool⟩ := pool_of_lineage hline
    rw [lineage_of_pool hpool] at hline
    refine ⟨pool, p.net, hpool, ?_, (p.contains_net ip).mpr hip⟩
    simp only [IPPool.range, (Prod.mk.inj (Option.some.inj hline)).2]

theorem Laminar.branch {ed : String} (hc : Consistent s.ledger) (h : Laminar ed s.ledger) {project : String}
    (hsees : Tenant.SeesOwn project.toList) (hk : RootedIn s project k) (hk' : RootedIn s project k')
    (hmeet : (rangeOf s.ledger k ∩ rangeOf s.ledger k').Nonempty) :
    Relation.ReflTransGen (ParentPool s) k k' ∨ Relation.ReflTransGen (ParentPool s) k' k := by
  have hup : ParentPool s = Under s.ledger := by
    funext a b
    exact propext (parentPool_iff hc h.forested)
  obtain ⟨name, pool, hpath, hpool, hroot⟩ := hk
  obtain ⟨name', pool', hpath', hpool', hroot'⟩ := hk'
  have hline := lineage_of_pool hpool
  have hline' := lineage_of_pool hpool'
  rw [hroot] at hline
  rw [hroot'] at hline'
  rw [hup] at hpath hpath' ⊢
  exact Forests.comparable (fun _ _ hunder => hunder.nested hc h.ranged)
    (fun _ _ _ ha hb => ha.sibling h.siblings hb) hpath hpath' (h.grounded.root hsees hline hline') hmeet

/-- Every child pool lies in its parent, every pool goes back to a root pool, and of the pools that go back to root
pools of one project, if its listing shows it its own pools, only those on one branch share addresses, and so do their
rows. -/
theorem pools_laminar (hs : ForestRun hash s) :
    (∀ k pool parent, s.pool k = some pool → pool.parentPoolRef = some parent →
      ∃ k', ParentPool s k k' ∧ keyName k' = parent ∧ ∀ ip, PoolHolds s k ip → PoolHolds s k' ip) ∧
    (∀ k pool, s.pool k = some pool → ∃ project, RootedIn s project k) ∧
    (∀ project k k' ip, Tenant.SeesOwn project.toList → RootedIn s project k → RootedIn s project k' →
      PoolHolds s k ip → PoolHolds s k' ip →
      Relation.ReflTransGen (ParentPool s) k k' ∨ Relation.ReflTransGen (ParentPool s) k' k) ∧
    ∀ project, Tenant.SeesOwn project.toList → ∀ r ∈ s.rows, ∀ o ∈ s.rows, RootedIn s project r.poolKey →
      RootedIn s project o.poolKey → ¬ Relation.ReflTransGen (ParentPool s) r.poolKey o.poolKey →
      ¬ Relation.ReflTransGen (ParentPool s) o.poolKey r.poolKey →
      ∀ ip, ¬ (r.cidr.net.contains ip = true ∧ o.cidr.net.contains ip = true) := by
  obtain ⟨hc, h⟩ := served_laminar hs
  have hup : ∀ {a b}, ParentPool s a b ↔ Under s.ledger a b := parentPool_iff hc h.forested
  refine ⟨?_, ?_, ?_, ?_⟩
  · intro k pool parent hpool hparent
    have hline := lineage_of_pool hpool
    obtain ⟨root, range, hpath, hroot⟩ := h.forested k _ hline
    obtain rfl | ⟨k', hunder, -⟩ := hpath.cases_head
    · rw [hline, hparent] at hroot
      cases hroot
    · have hname := hunder
      obtain ⟨r, -, -, -, hline'⟩ := hname
      rw [hline, hparent] at hline'
      refine ⟨k', hup.mpr hunder, ?_, ?_⟩
      · exact (Option.some.inj (Prod.mk.inj (Option.some.inj hline')).1).symm
      · intro ip hip
        exact (poolHolds_iff h.ranged).mpr (hunder.nested hc h.ranged ((poolHolds_iff h.ranged).mp hip))
  · intro k pool hpool
    obtain ⟨root, range, hpath, hroot⟩ := h.forested k _ (lineage_of_pool hpool)
    obtain ⟨rootPool, hrootPool⟩ := pool_of_lineage hroot
    obtain ⟨project, name, rfl⟩ := h.grounded.keys root rootPool.core (pool_of_ledger hrootPool)
    refine ⟨project, name, rootPool, ?_, hrootPool, ?_⟩
    · exact Relation.ReflTransGen.mono (fun _ _ => hup.mpr) _ _ hpath
    · rw [lineage_of_pool hrootPool] at hroot
      exact (Prod.mk.inj (Option.some.inj hroot)).1
  · intro project k k' ip hsees hk hk' hip hip'
    exact h.branch hc hsees hk hk' ⟨ip.shortest, (poolHolds_iff h.ranged).mp hip, (poolHolds_iff h.ranged).mp hip'⟩
  · rintro project hsees r hr o ho hroot hroot' hnot hnot' ip ⟨hip, hip'⟩
    have hmeet : (rangeOf s.ledger r.poolKey ∩ rangeOf s.ledger o.poolKey).Nonempty :=
      ⟨ip.shortest, mem_rangeOf_of_row hc h.ranged hr ((r.cidr.contains_net ip).mp hip),
        mem_rangeOf_of_row hc h.ranged ho ((o.cidr.contains_net ip).mp hip')⟩
    cases h.branch hc hsees hroot hroot' hmeet with
    | inl hpath => exact hnot hpath
    | inr hpath => exact hnot' hpath

end

theorem halvedOffice_forestRun : ForestRun byteChars halvedOffice := by
  have hchild : ∀ name, (Action.createPool (childRequest name "office" 25)).Unmapped := by
    intro name cidr hcidr
    cases hcidr
  exact .serve _ (.serve _ (.serve _ .start ⟨servedOffice_unmapped, trivial⟩) ⟨hchild _, trivial⟩) ⟨hchild _, trivial⟩

theorem pools_laminar_halved :
    ForestRun byteChars halvedOffice ∧ ∃ k', ParentPool halvedOffice (poolStorageKey "infra" "east") k' ∧
      keyName k' = "office" ∧ ∀ ip, PoolHolds halvedOffice (poolStorageKey "infra" "east") ip →
        PoolHolds halvedOffice k' ip := by
  have heast : ∃ pool, halvedOffice.pool (poolStorageKey "infra" "east") = some pool := by
    rw [← Option.isSome_iff_exists]
    decide +kernel
  obtain ⟨pool, hpool⟩ := heast
  have hparent : (halvedOffice.pool (poolStorageKey "infra" "east")).bind IPPool.parentPoolRef = some "office" := by
    decide +kernel
  rw [hpool] at hparent
  exact ⟨halvedOffice_forestRun, (pools_laminar halvedOffice_forestRun).1 _ pool "office" hpool hparent⟩

def fabricClassRequest : ClassRequest :=
  ⟨"infra", "fabric", { hostsClass with defaultPrefixLength := 25 }, none, true, []⟩

def fabricPoolRequest : PoolRequest :=
  { rootRequest "office" officePool with
    pool := { (rootRequest "office" officePool).pool with classNames := ["fabric"] } }

def fabricReferenceRequest : ClassRequest :=
  ⟨"tenant", "fabric", { hostsClass with
    source := some ("infra", "fabric"), ipFamily := none, defaultPrefixLength := 0 }, some true, true, []⟩

def labClassRequest : ClassRequest :=
  ⟨"tenant", "lab", { hostsClass with
    parentClassName := some "fabric", poolPer := ["site"], defaultPrefixLength := 26 }, none, true, []⟩

def labRequest : ClaimRequest :=
  ⟨"tenant", "default", "bench", { hostsClaim none with
    className := "lab", target := .scopeRange, scope := [("site", ⟨"net", "Site", "north"⟩)] }, true, true, []⟩

def labSetup : Db :=
  serve byteChars (.createClass labClassRequest) (serve byteChars (.createClass fabricReferenceRequest)
    (serve byteChars (.createPool fabricPoolRequest) (serve byteChars (.createClass fabricClassRequest) Db.empty)))

def labOffice : Db :=
  serve byteChars (.createPool { rootRequest "own" officePool with project := "tenant" })
    (serve byteChars (.createClaim labRequest) labSetup)

theorem labOffice_run : ForestRun byteChars labOffice := by
  have hunmapped : ∀ {req : PoolRequest}, req.pool.cidr = some officePool.net → (Action.createPool req).Unmapped := by
    intro req hreq cidr hcidr
    obtain rfl : officePool.net = cidr := Option.some.inj (hreq.symm.trans hcidr)
    exact ⟨officePool, officePool.string_net, by decide⟩
  refine .serve _ (.serve _ (.serve _ (.serve _ (.serve _ (.serve _ .start ⟨trivial, trivial⟩) ⟨?_, trivial⟩)
    ⟨trivial, trivial⟩) ⟨trivial, trivial⟩) ⟨trivial, trivial⟩) ⟨?_, trivial⟩
  · exact hunmapped rfl
  · exact hunmapped rfl

theorem PoolHolds.of_any {s : Db} {k : Key} {ip : IP}
    (h : ((s.pool k).bind IPPool.range).any (fun range => range.contains ip) = true) : PoolHolds s k ip := by
  obtain ⟨range, hrange, hip⟩ := (Option.any_eq_true _ _).mp h
  obtain ⟨pool, hpool, hrange⟩ := Option.bind_eq_some_iff.mp hrange
  exact ⟨pool, range, hpool, hrange, hip⟩

theorem pools_crossing :
    ForestRun byteChars labOffice ∧ ∃ name, PoolHolds labOffice (poolStorageKey "tenant" name) officePool.net.ip ∧
      PoolHolds labOffice (poolStorageKey "tenant" "own") officePool.net.ip ∧
      ¬ Relation.ReflTransGen (ParentPool labOffice) (poolStorageKey "tenant" name) (poolStorageKey "tenant" "own") ∧
      ¬ Relation.ReflTransGen (ParentPool labOffice) (poolStorageKey "tenant" "own")
        (poolStorageKey "tenant" name) := by
  -- the root pool has no row of its own and none is cut from it, so its branch is itself
  have hrows : ∀ r ∈ labOffice.rows, r.poolKey ≠ poolStorageKey "tenant" "own" ∧
      r.allocationKey ≠ poolStorageKey "tenant" "own" := by
    decide +kernel
  have hname : poolStorageKey "tenant" "lab-north-13:ipam." ≠ poolStorageKey "tenant" "own" := by
    decide
  refine ⟨labOffice_run, "lab-north-13:ipam.", .of_any (by decide +kernel), .of_any (by decide +kernel), ?_, ?_⟩
  · intro hpath
    obtain heq | ⟨_, _, _, r, _, _, hr, _, hpool⟩ := hpath.cases_tail
    · exact hname heq.symm
    · exact (hrows r hr).1 hpool
  · intro hpath
    obtain heq | ⟨_, ⟨_, r, _, _, hr, hkey, _⟩, _⟩ := hpath.cases_head
    · exact hname heq.symm
    · exact (hrows r hr).2 hkey

end Ipam.Registry
