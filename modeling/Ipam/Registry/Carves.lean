import Ipam.Registry.Families
import Ipam.Registry.Shapes

namespace Ipam.Registry

open Allocation Allocator Cascade Database Transaction

def Object.lineage : Object → Option (Option String × Option Cidr)
  | .pool p => some (p.parentPoolRef, p.allocatedCIDR)
  | _ => none

def Object.ranges : Object → Bool
  | .claim c => c.target = .scopeRange
  | _ => false

def lineage (L : Ledger) (k : Key) : Option (Option String × Option Cidr) :=
  (L.objects k).bind Object.lineage

def ranges (L : Ledger) (k : Key) : Bool :=
  (L.objects k).any Object.ranges

def Row.OfPool (r : Row) : Prop :=
  Key.resource r.allocationKey = some .ippools

def carves (L : Ledger) : Set Row :=
  Row.unclaimed '' {r | r ∈ L.rows ∧ Row.OfPool r}

def Holding (L : Ledger) : Prop :=
  ∀ r ∈ L.rows, Row.OfPool r → r.claimKey = some r.allocationKey ∨ ∃ k, r.claimKey = some k ∧ ranges L k = true

structure Corresponds (L : Ledger) : Prop where
  carve : ∀ k parent range, lineage L k = some (some parent, range) → ∃ r ∈ carves L, r.allocationKey = k
  pool : ∀ r ∈ carves L, lineage L r.allocationKey = some (some (keyName r.poolKey), some r.cidr)

/-- What a change can do to the pools and to their rows in other pools. A pool that goes takes its row along if the
request is `tidy`. -/
inductive PoolChange (tidy : Prop) (L L' : Ledger) : Prop where
  | cut (gone : Key → Prop) (kept : ∀ k, ¬ gone k → lineage L' k = lineage L k)
      (away : ∀ k, gone k → lineage L' k = none) (sub : carves L' ⊆ carves L)
      (rows : ∀ r ∈ carves L, ¬ gone r.allocationKey → r ∈ carves L')
      (tidied : tidy → Corresponds L → ∀ r ∈ carves L', ¬ gone r.allocationKey)
  | root {k : Key} {range : Option Cidr} (absent : lineage L k = none)
      (lines : lineage L' = Function.update (lineage L) k (some (none, range))) (rows : carves L' = carves L)
  | plant {row : Row} {line : Option String × Option Cidr} (absent : lineage L row.allocationKey = none)
      (source : lineage L row.poolKey = some line)
      (lines : lineage L' = Function.update (lineage L) row.allocationKey
        (some (some (keyName row.poolKey), some row.cidr)))
      (rows : carves L' = insert row.unclaimed (carves L))

structure PoolStep (tidy : Prop) (L L' : Ledger) : Prop where
  change : PoolChange tidy L L'
  holding : Holding L'

section

variable {L L' : Ledger} {k k' : Key} {o : Object}

theorem lineage_put : lineage (L.put k o) = Function.update (lineage L) k (Object.lineage o) := by
  funext k'
  simp only [lineage, Ledger.put, Function.update_apply]
  split
  · rfl
  · rfl

theorem ranges_put : ranges (L.put k o) = Function.update (ranges L) k (Object.ranges o) := by
  funext k'
  simp only [ranges, Ledger.put, Function.update_apply]
  split
  · rfl
  · rfl

theorem lineage_remove_of_ne (h : k' ≠ k) : lineage (L.remove k) k' = lineage L k' := by
  simp only [lineage, Ledger.remove, Function.update_of_ne h]

theorem lineage_remove_self : lineage (L.remove k) k = none := by
  simp only [lineage, Ledger.remove, Function.update_self]
  rfl

theorem ranges_remove_of_ne (h : k' ≠ k) : ranges (L.remove k) k' = ranges L k' := by
  simp only [ranges, Ledger.remove, Function.update_of_ne h]

theorem lineage_absent (h : L.objects k = none) : lineage L k = none := by
  simp only [lineage, h]
  rfl

theorem ranges_absent (h : L.objects k = none) : ranges L k = false := by
  simp only [ranges, h]
  rfl

theorem lineage_stored (h : L.objects k = some o) : lineage L k = Object.lineage o := by
  simp only [lineage, h]
  rfl

theorem ranges_stored (h : L.objects k = some o) : ranges L k = Object.ranges o := by
  simp only [ranges, h]
  rfl

theorem resource_of_ranges {ed : String} (h : Shaped ed L) (hk : ranges L k = true) :
    Key.resource k = some .ipclaims := by
  cases ho : L.objects k with
  | none =>
    rw [ranges_absent ho] at hk
    cases hk
  | some o =>
    rw [ranges_stored ho] at hk
    cases o with
    | claim c => exact h.objects k _ ho
    | pool | class_ | allocation => cases hk

theorem lineage_other {ed : String} (h : Shaped ed L) (hk : Key.resource k ≠ some .ippools) : lineage L k = none := by
  cases ho : L.objects k with
  | none => exact lineage_absent ho
  | some o =>
    have hres := h.objects k o ho
    rw [lineage_stored ho]
    cases o with
    | pool p => exact absurd hres hk
    | class_ | claim | allocation => rfl

theorem mem_released {ed : String} (h : Shaped ed L) {r : Row} (hr : Row.OfPool r) :
    r ∈ (released L k).rows ↔ r ∈ L.rows ∧ r.claimKey ≠ some k := by
  have hmap : ∀ o ∈ L.rows, Row.OfPool o → Row.retained k o = false := by
    intro o ho hpool
    simp [Row.retained, (h.rows o ho).policy_delete hpool]
  simp only [released, Ledger.drop, Ledger.retain, List.mem_filter, List.mem_map, Bool.not_eq_true',
    decide_eq_false_iff_not]
  constructor
  · rintro ⟨⟨o, ho, rfl⟩, hclaim⟩
    have hpool : Row.OfPool o := by
      simp only [Row.OfPool] at hr ⊢
      split at hr
      · exact hr
      · exact hr
    simp only [hmap o ho hpool] at hclaim ⊢
    exact ⟨ho, hclaim⟩
  · rintro ⟨hmem, hclaim⟩
    refine ⟨⟨r, hmem, ?_⟩, hclaim⟩
    simp [hmap r hmem hr]

theorem Disposed.rows {retained : List Key} {allocation : Option Key} (h : Disposed L retained allocation L') :
    L'.rows = L.rows := by
  cases h with
  | unbound | missing _ _ | kept _ _ | removed _ _ => rfl

theorem Corresponds.step {tidy : Prop} (h : Corresponds L) (hstep : PoolChange tidy L L') (ht : tidy) :
    Corresponds L' := by
  have hne : ∀ {k r}, lineage L k = none → r ∈ carves L → r.allocationKey ≠ k := by
    rintro k r hk hr rfl
    rw [h.pool r hr] at hk
    cases hk
  cases hstep with
  | cut gone hkept haway hsub hrows htidied =>
    refine ⟨?_, ?_⟩
    · intro k parent range hk
      have hstays : ¬ gone k := fun hgone => by
        rw [haway k hgone] at hk
        cases hk
      rw [hkept k hstays] at hk
      obtain ⟨r, hr, rfl⟩ := h.carve k parent range hk
      exact ⟨r, hrows r hr hstays, rfl⟩
    · intro r hr
      rw [hkept _ (htidied ht h r hr)]
      exact h.pool r (hsub hr)
  | @root k range habsent hlines hrows =>
    refine ⟨?_, ?_⟩
    · intro k' parent range' hk'
      rw [hlines] at hk'
      rw [hrows]
      by_cases heq : k' = k
      · subst heq
        rw [Function.update_self] at hk'
        cases hk'
      · rw [Function.update_of_ne heq] at hk'
        exact h.carve k' parent range' hk'
    · intro r hr
      rw [hrows] at hr
      rw [hlines, Function.update_of_ne (hne habsent hr)]
      exact h.pool r hr
  | @plant row line habsent _ hlines hrows =>
    refine ⟨?_, ?_⟩
    · intro k parent range hk
      rw [hlines] at hk
      rw [hrows]
      by_cases heq : k = row.allocationKey
      · exact ⟨row.unclaimed, Set.mem_insert _ _, heq.symm⟩
      · rw [Function.update_of_ne heq] at hk
        obtain ⟨r, hr, hkey⟩ := h.carve k parent range hk
        exact ⟨r, Set.mem_insert_of_mem _ hr, hkey⟩
    · intro r hr
      rw [hrows] at hr
      rw [hlines]
      obtain rfl | hr := Set.mem_insert_iff.mp hr
      · exact Function.update_self _ _ _
      · rw [Function.update_of_ne (hne habsent hr)]
        exact h.pool r hr

theorem carves_congr (h : ∀ r, Row.OfPool r → (r ∈ L'.rows ↔ r ∈ L.rows)) : carves L' = carves L := by
  have hrows : {r | r ∈ L'.rows ∧ Row.OfPool r} = {r | r ∈ L.rows ∧ Row.OfPool r} := by
    ext r
    exact and_congr_left (h r)
  rw [carves, hrows, carves]

theorem carves_setClaim {claim : Option Key} : carves (L.setClaim k claim) = carves L := by
  let f : Row → Row := fun r => if r.allocationKey = k then { r with claimKey := claim } else r
  have hf : ∀ r, (f r).unclaimed = r.unclaimed ∧ (Row.OfPool (f r) ↔ Row.OfPool r) := by
    intro r
    simp only [f]
    split
    · exact ⟨rfl, Iff.rfl⟩
    · exact ⟨rfl, Iff.rfl⟩
  ext r
  constructor
  · rintro ⟨_, ⟨hr, hof⟩, rfl⟩
    obtain ⟨o, ho, rfl⟩ := List.mem_map.mp hr
    exact ⟨o, ⟨ho, (hf o).2.mp hof⟩, (hf o).1.symm⟩
  · rintro ⟨o, ⟨ho, hof⟩, rfl⟩
    exact ⟨f o, ⟨List.mem_map_of_mem ho, (hf o).2.mpr hof⟩, (hf o).1⟩

theorem PoolChange.same {tidy : Prop} (hline : lineage L' = lineage L) (hcarves : carves L' = carves L) :
    PoolChange tidy L L' :=
  .cut (fun _ => False) (fun k _ => by rw [hline]) (fun _ hfalse => hfalse.elim) hcarves.le
    (fun r hr _ => hcarves ▸ hr) fun _ _ _ _ hfalse => hfalse

theorem mem_carves {r : Row} (hr : r ∈ L.rows) (hof : Row.OfPool r) : r.unclaimed ∈ carves L :=
  ⟨r, ⟨hr, hof⟩, rfl⟩

theorem lineage_remove_other {ed : String} (hs : Shaped ed L) (hk : Key.resource k ≠ some .ippools) :
    lineage (L.remove k) = lineage L := by
  funext k'
  by_cases heq : k' = k
  · subst heq
    rw [lineage_remove_self, lineage_other hs hk]
  · exact lineage_remove_of_ne heq

theorem Holding.mono (h : Holding L) (hrows : ∀ r ∈ L'.rows, Row.OfPool r → r ∈ L.rows)
    (hclaims : ∀ k r, ranges L k = true → r ∈ L'.rows → Row.OfPool r → r.claimKey = some k → ranges L' k = true) :
    Holding L' := by
  intro r hr hof
  refine (h r (hrows r hr hof) hof).imp_right ?_
  rintro ⟨k, hclaim, hk⟩
  exact ⟨k, hclaim, hclaims k r hk hr hof hclaim⟩

theorem Holding.block (h : Holding L) {ed : String} (hs : Shaped ed L) {c : IPClaim}
    (hstored : L.objects k = some (.claim c)) (hblock : c.target = .block) {r : Row} (hr : r ∈ L.rows)
    (hof : Row.OfPool r) : r.claimKey ≠ some k := by
  intro hclaim
  obtain hself | ⟨k', hk', hrange⟩ := h r hr hof
  · obtain rfl : r.allocationKey = k := Option.some.inj (hself.symm.trans hclaim)
    have hres := hs.objects _ _ hstored
    rw [hof] at hres
    cases hres
  · obtain rfl : k' = k := Option.some.inj (hk'.symm.trans hclaim)
    rw [ranges_stored hstored] at hrange
    simp [Object.ranges, hblock] at hrange

theorem drop_ofPool {ed : String} (h : Shaped ed L) {k : Key} {r : Row} (hr : Row.OfPool r) :
    r ∈ (L.drop (DeleteCond.matches (.reservationsOf k))).rows ↔ r ∈ L.rows := by
  refine ⟨fun hmem => (List.mem_filter.mp hmem).1, fun hmem => List.mem_filter.mpr ⟨hmem, ?_⟩⟩
  simp [DeleteCond.matches, (h.rows r hmem).purpose_ne hr]

theorem tree_pools {ed : String} {carve : Row} {tree : List Key} (hs : Shaped ed L) (hmem : carve ∈ L.rows)
    (hpurpose : carve.purpose = .poolCarve) (htree : ∀ x, x ∈ tree ↔ InTree L.rows carve.allocationKey x) {k : Key}
    (hk : k ∈ tree) : Key.resource k = some .ippools := by
  obtain rfl | ⟨k', -, r, hr, -, hp, rfl⟩ := ((htree k).mp hk).cases_tail
  · exact (hs.rows carve hmem).of_carve hpurpose
  · exact (hs.rows r hr).of_carve hp

theorem disposed_lineage {ed tenant namespace_ : String} {retained : List Key} {claim : IPClaim} (hs : Shaped ed L)
    (hd : Disposed L retained (boundKey tenant namespace_ claim) L') : lineage L' = lineage L ∧ ranges L' = ranges L := by
  have hkey : ∀ k, boundKey tenant namespace_ claim = some k → Key.resource k = some .ipallocations := by
    intro k hk
    obtain ⟨name, -, rfl⟩ := Option.map_eq_some_iff.mp hk
    rfl
  generalize boundKey tenant namespace_ claim = allocation at hd hkey
  cases hd with
  | unbound => exact ⟨rfl, rfl⟩
  | missing _ _ => exact ⟨rfl, rfl⟩
  | @kept k a _ hstored =>
    rw [lineage_put, ranges_put]
    constructor
    · exact (congrArg _ (lineage_stored hstored).symm).trans (Function.update_eq_self _ _)
    · exact (congrArg _ (ranges_stored hstored).symm).trans (Function.update_eq_self _ _)
  | @removed k _ _ =>
    have hallocation := hkey k rfl
    constructor
    · funext k'
      by_cases hk : k' = k
      · subst hk
        rw [lineage_remove_self, lineage_other hs (by simp [hallocation])]
      · exact lineage_remove_of_ne hk
    · funext k'
      by_cases hk : k' = k
      · subst hk
        have hfalse : ranges L k' = false := by
          by_contra hrange
          rw [resource_of_ranges hs (by simpa using hrange)] at hallocation
          cases hallocation
        rw [hfalse]
        simp [ranges, Ledger.remove]
      · exact ranges_remove_of_ne hk

namespace PoolStep

variable {tidy : Prop} (h : Holding L)

include h

theorem same (hline : lineage L' = lineage L) (hrows : ∀ r, Row.OfPool r → (r ∈ L'.rows ↔ r ∈ L.rows))
    (hclaims : ∀ k r, ranges L k = true → r ∈ L.rows → Row.OfPool r → r.claimKey = some k → ranges L' k = true) :
    PoolStep tidy L L' := by
  refine ⟨.same hline (carves_congr hrows), h.mono (fun r hr hof => (hrows r hof).mp hr) ?_⟩
  exact fun k r hk hr hof => hclaims k r hk ((hrows r hof).mp hr) hof

theorem put (hline : Object.lineage o = lineage L k) (hclaim : ranges L k = true → Object.ranges o = true) :
    PoolStep tidy L (L.put k o) := by
  refine same h ?_ (fun r _ => Iff.rfl) ?_
  · rw [lineage_put, hline, Function.update_eq_self]
  · intro k' _ hk' _ _ _
    rw [ranges_put, Function.update_apply]
    split
    · rename_i heq
      exact hclaim (heq ▸ hk')
    · exact hk'

theorem put_stored {old : Object} (hstored : L.objects k = some old) (hline : Object.lineage o = Object.lineage old)
    (hclaim : Object.ranges old = true → Object.ranges o = true) : PoolStep tidy L (L.put k o) :=
  put h (hline.trans (lineage_stored hstored).symm) (ranges_stored hstored ▸ hclaim)

theorem put_absent (habsent : L.objects k = none) (ho : Object.lineage o = none) : PoolStep tidy L (L.put k o) := by
  apply put h (ho.trans (lineage_absent habsent).symm)
  rw [ranges_absent habsent]
  exact fun hfalse => nomatch hfalse

theorem remove_other {ed : String} (hs : Shaped ed L) (hk : Key.resource k ≠ some .ippools)
    (hunheld : ∀ r ∈ L.rows, Row.OfPool r → r.claimKey ≠ some k ∨ ranges L k = false) :
    PoolStep tidy L (L.remove k) := by
  refine same h (lineage_remove_other hs hk) (fun r _ => Iff.rfl) ?_
  intro k' r hk' hr hof hclaim
  rw [ranges_remove_of_ne]
  · exact hk'
  · rintro rfl
    refine (hunheld r hr hof).elim (fun hne => hne hclaim) fun hfalse => ?_
    rw [hk'] at hfalse
    cases hfalse

theorem grow {pool : IPPool} {k : Key} (habsent : L.objects k = none)
    (hobjects : L'.objects = Function.update L.objects k (some (.pool pool)))
    (hrows : ∀ r ∈ L'.rows, Row.OfPool r → r ∈ L.rows ∨ r.claimKey = some r.allocationKey) : Holding L' := by
  intro r hr hof
  obtain hold | hself := hrows r hr hof
  · refine (h r hold hof).imp_right ?_
    rintro ⟨k', hclaim, hk'⟩
    refine ⟨k', hclaim, ?_⟩
    have hne : k' ≠ k := by
      rintro rfl
      rw [ranges_absent habsent] at hk'
      cases hk'
    simpa only [ranges, hobjects, Function.update_of_ne hne] using hk'
  · exact .inl hself

theorem put_root {pool : IPPool} (habsent : L.objects k = none) (hroot : pool.parentPoolRef = none) :
    PoolStep tidy L (L.put k (.pool pool)) := by
  refine ⟨@PoolChange.root _ _ _ k pool.allocatedCIDR (lineage_absent habsent) ?_ rfl, grow h habsent rfl fun r hr _ => .inl hr⟩
  rw [lineage_put, Object.lineage, hroot]

theorem plant {row : Row} {pool : IPPool} (habsent : L.objects row.allocationKey = none) (hof : Row.OfPool row)
    (hself : row.claimKey = some row.allocationKey) {source : IPPool}
    (hsource : L.objects row.poolKey = some (.pool source))
    (hrows : ∀ r, Row.OfPool r → (r ∈ L'.rows ↔ r ∈ L.rows ∨ r = row))
    (hobjects : L'.objects = Function.update L.objects row.allocationKey (some (.pool pool)))
    (hparent : pool.parentPoolRef = some (keyName row.poolKey)) (hrange : pool.allocatedCIDR = some row.cidr) :
    PoolStep tidy L L' := by
  refine ⟨.plant (lineage_absent habsent) (lineage_stored hsource) ?_ ?_, grow h habsent hobjects ?_⟩
  · have hline : lineage L' = lineage (L.put row.allocationKey (.pool pool)) := by
      simp only [funext_iff, lineage, hobjects, Ledger.put, implies_true]
    rw [hline, lineage_put, Object.lineage, hparent, hrange]
  · rw [carves, carves, ← Set.image_insert_eq]
    congr 1
    ext r
    constructor
    · rintro ⟨hr, hr'⟩
      exact ((hrows r hr').mp hr).elim (fun hold => .inr ⟨hold, hr'⟩) .inl
    · rintro (rfl | ⟨hr, hr'⟩)
      · exact ⟨(hrows r hof).mpr (.inr rfl), hof⟩
      · exact ⟨(hrows r hr').mpr (.inl hr), hr'⟩
  · intro r hr hr'
    refine ((hrows r hr').mp hr).imp_right ?_
    rintro rfl
    exact hself

theorem hold {claim : Key} {c : IPClaim} (habsent : L.objects claim = none) (hc : c.target = .scopeRange) :
    PoolStep tidy L ((L.setClaim k (some claim)).put claim (.claim c)) := by
  have hline : lineage ((L.setClaim k (some claim)).put claim (.claim c)) = lineage L := by
    have hnone : Object.lineage (.claim c) = lineage L claim := (lineage_absent habsent).symm
    rw [lineage_put, hnone]
    exact Function.update_eq_self _ _
  refine ⟨.same hline carves_setClaim, ?_⟩
  intro r hr hof
  obtain ⟨o, ho, rfl⟩ := List.mem_map.mp hr
  by_cases heq : o.allocationKey = k
  · rw [if_pos heq]
    refine .inr ⟨claim, rfl, ?_⟩
    rw [ranges_put, Function.update_self]
    exact decide_eq_true hc
  · rw [if_neg heq] at hof ⊢
    refine (h o ho hof).imp_right ?_
    rintro ⟨k', hk', hrange⟩
    refine ⟨k', hk', ?_⟩
    rw [ranges_put, Function.update_apply]
    split
    · exact decide_eq_true hc
    · exact hrange

theorem remove_pool {ed : String} (hs : Shaped ed L) (hk : Key.resource k = some .ippools)
    {pool : IPPool} (hstored : L.objects k = some (.pool pool)) (hroot : tidy → pool.parentPoolRef = none) : PoolStep tidy L (L.remove k) := by
  refine ⟨.cut (· = k) (fun _ => lineage_remove_of_ne) ?_ subset_rfl (fun r hr _ => hr) ?_,
    h.mono (fun r hr _ => hr) ?_⟩
  · rintro _ rfl
    exact lineage_remove_self
  · rintro ht hcorr r hr heq
    have hpool := hcorr.pool r hr
    rw [heq, lineage_stored hstored, Object.lineage, hroot ht] at hpool
    cases hpool
  · intro k' r hk' _ _ _
    rw [ranges_remove_of_ne]
    · exact hk'
    · rintro rfl
      rw [resource_of_ranges hs hk'] at hk
      cases hk

theorem deleteChild {ed : String} (hs : Shaped ed L) (hk : Key.resource k = some .ippools)
    (hself : tidy → ∀ r ∈ L.rows, r.allocationKey = k → r.claimKey = some k) :
    PoolStep tidy L ((released (L.drop (DeleteCond.matches (.reservationsOf k))) k).remove k) := by
  have hmem : ∀ r, Row.OfPool r → (r ∈ (released (L.drop (DeleteCond.matches (.reservationsOf k))) k).rows ↔
      r ∈ L.rows ∧ r.claimKey ≠ some k) := by
    intro r hof
    rw [mem_released (hs.drop _) hof, drop_ofPool hs hof]
  refine ⟨.cut (· = k) (fun _ => lineage_remove_of_ne) ?_ ?_ ?_ ?_, h.mono (fun r hr hof => ((hmem r hof).mp hr).1) ?_⟩
  · rintro _ rfl
    exact lineage_remove_self
  · rintro _ ⟨r, ⟨hr, hof⟩, rfl⟩
    exact mem_carves ((hmem r hof).mp hr).1 hof
  · rintro _ ⟨r, ⟨hr, hof⟩, rfl⟩ hne
    refine mem_carves ((hmem r hof).mpr ⟨hr, fun hclaim => ?_⟩) hof
    -- the key is not that of a claim
    obtain hown | ⟨k', hk', hrange⟩ := h r hr hof
    · exact hne (Option.some.inj (hown.symm.trans hclaim))
    · rw [Option.some.inj (hk'.symm.trans hclaim)] at hrange
      rw [resource_of_ranges hs hrange] at hk
      cases hk
  · rintro ht - _ ⟨r, ⟨hr, hof⟩, rfl⟩ heq
    obtain ⟨hold, hne⟩ := (hmem r hof).mp hr
    exact hne (hself ht r hold heq)
  · intro k' r hk' _ _ _
    rw [ranges_remove_of_ne]
    · exact hk'
    · rintro rfl
      rw [resource_of_ranges hs hk'] at hk
      cases hk

theorem releaseRange {ed : String} {carve : Row} {claim : Key} {tree : List Key} (hc : Consistent L) (hs : Shaped ed L)
    (hmem : carve ∈ L.rows) (hheld : carve.claimKey = some claim) (hpurpose : carve.purpose = .poolCarve)
    (hclaim : Key.resource claim = some .ipclaims) (htree : ∀ x, x ∈ tree ↔ InTree L.rows carve.allocationKey x)
    (hclosed : ∀ r ∈ L.rows, r.poolKey ∈ tree → r.purpose = .reservation ∨ Row.derived r ∧ r.allocationKey ∈ tree) :
    PoolStep tidy L ((Ledger.clear L tree [carve.allocationKey]).remove claim) := by
  have hroot : carve.allocationKey ∈ tree := (htree _).mpr .refl
  have hne : ∀ k, Key.resource k = some .ipclaims → k ∉ tree := by
    intro k hk hin
    rw [tree_pools hs hmem hpurpose htree hin] at hk
    cases hk
  have hout : ∀ k, k ∉ tree → k ≠ claim → ((Ledger.clear L tree [carve.allocationKey]).remove claim).objects k =
      L.objects k := by
    intro k hk hkc
    refine (Function.update_of_ne hkc _ _).trans ?_
    exact if_neg hk
  have hstays : ∀ r ∈ ((Ledger.clear L tree [carve.allocationKey]).remove claim).rows, r ∈ L.rows ∧
      r.allocationKey ∉ tree := by
    intro r hr
    obtain ⟨hr, hcond⟩ := List.mem_filter.mp hr
    simp only [decide_eq_true_eq, List.mem_singleton] at hcond
    refine ⟨hr, fun hin => ?_⟩
    obtain heq | ⟨k', hpath, o, ho, hk', hp, hkey⟩ := ((htree _).mp hin).cases_tail
    · exact hcond.2 heq
    · obtain rfl := hc.keyed.eq_of_allocationKey hr ho hkey.symm
      exact hcond.1 (hk' ▸ (htree k').mpr hpath)
  refine ⟨.cut (· ∈ tree) ?_ ?_ ?_ ?_ ?_, h.mono (fun r hr _ => (hstays r hr).1) ?_⟩
  · intro k hk
    by_cases hkc : k = claim
    · subst hkc
      rw [lineage_remove_self, lineage_other hs (by simp [hclaim])]
    · simp only [lineage, hout k hk hkc]
  · intro k hk
    have hkc : k ≠ claim := fun heq => hne claim hclaim (heq ▸ hk)
    rw [lineage_remove_of_ne hkc, lineage_absent (if_pos hk)]
  · rintro _ ⟨r, ⟨hr, hof⟩, rfl⟩
    exact mem_carves (hstays r hr).1 hof
  · rintro _ ⟨r, ⟨hr, hof⟩, rfl⟩ hnot
    refine mem_carves (List.mem_filter.mpr ⟨hr, ?_⟩) hof
    simp only [decide_eq_true_eq, List.mem_singleton]
    refine ⟨fun hsource => ?_, fun heq => hnot (heq ▸ hroot :)⟩
    cases hclosed r hr hsource with
    | inr hin => exact hnot hin.2
    | inl hreservation => exact (hs.rows r hr).purpose_ne hof hreservation
  · rintro - - _ ⟨r, ⟨hr, -⟩, rfl⟩
    exact (hstays r hr).2
  · intro k r hk hr _ hkey
    obtain ⟨hold, hnot⟩ := hstays r hr
    have hkc : k ≠ claim := by
      rintro rfl
      obtain rfl := hc.keyed.eq_of_claimKey hold hmem hkey hheld
      exact hnot hroot
    simp only [ranges, hout k (hne k (resource_of_ranges hs hk)) hkc]
    exact hk

theorem releaseClaim {ed : String} {tenant namespace_ : String} {claim c : IPClaim} {retained : List Key} {disposed : Ledger}
    (hs : Shaped ed L) (hstored : L.objects k = some (.claim c)) (hblock : c.target = .block)
    (hdisposed : Disposed (released L k) retained (boundKey tenant namespace_ claim) disposed) :
    PoolStep tidy L (disposed.remove k) := by
  obtain ⟨hline, hranges⟩ := disposed_lineage hs.released hdisposed
  have hkey : Key.resource k ≠ some .ippools := by
    rw [hs.objects k _ hstored]
    rintro ⟨⟩
  refine same h ?_ ?_ ?_
  · rw [lineage_remove_other (hs.released.disposed hdisposed) hkey, hline]
    rfl
  · intro r hof
    change r ∈ disposed.rows ↔ _
    rw [hdisposed.rows, mem_released hs hof]
    exact and_iff_left_of_imp fun hr => h.block hs hstored hblock hr hof
  · intro k' r hk' hr hof hclaim
    rw [ranges_remove_of_ne, hranges]
    · exact hk'
    · rintro rfl
      exact h.block hs hstored hblock hr hof hclaim

end PoolStep

variable {ed digest : String} {n : ℤ} {row : Cidr → Row} {mid carved : Ledger} {pool : IPPool} {block : IPNet} {b : Cidr}

theorem not_ofPool_reservation (k : Key) (c : Cidr) : ¬ Row.OfPool (reservationRow ed k c) :=
  fun h => nomatch h

theorem Reserves.ofPool {parents : List IPNet} (h : Reserves ed k parents L L') {r : Row} (hr : Row.OfPool r) :
    r ∈ L'.rows ↔ r ∈ L.rows := by
  refine ⟨fun hmem => (h.mem hmem).resolve_right ?_, h.rows r⟩
  intro heq
  rw [heq] at hr
  exact not_ofPool_reservation _ _ hr

theorem Taken.ofPool (h : Taken ed k digest n row L mid L' pool block b) {r : Row} (hr : Row.OfPool r) :
    r ∈ L'.rows ↔ r ∈ L.rows ∨ r = row b := by
  obtain ⟨range, -, hmat⟩ := h.reserved
  rw [h.ledger]
  simp only [Ledger.add, List.mem_append, List.mem_singleton, Reserves.ofPool hmat.reserves hr]

theorem Provisioned.ofPool {level : CascadeLevel} {source : Key}
    (h : Provisioned ed level source n L mid carved L' pool block b) {r : Row} (hr : Row.OfPool r) :
    r ∈ L'.rows ↔ r ∈ L.rows ∨ r = level.carve.row source b := by
  rw [Reserves.ofPool h.materialised.reserves hr]
  exact Taken.ofPool h.taken hr

end

/-- The requests that keep pools and carves together: a pool is deleted while no scope-range claim holds its block, and
a collection delete names no pool with a parent. -/
def Action.KeepsCarves (L : Ledger) : Action → Prop
  | .updatePool req true => L.objects req.key ≠ none
  | .deletePool project name _ _ =>
    ∀ r ∈ L.rows, r.allocationKey = poolStorageKey project name → r.claimKey = some (poolStorageKey project name)
  | .deletePools project _ _ names => ∀ name ∈ names, ∀ pool,
    L.objects (poolStorageKey project name) = some (.pool pool) → pool.parentPoolRef = none
  | _ => True

def Action.ThroughCreate (L : Ledger) : Action → Prop
  | .updatePool req true => L.objects req.key ≠ none
  | _ => True

section

variable {hash : Scope.Text → String} {L L' : Ledger} {a : Action}

theorem Action.KeepsCarves.throughCreate (h : a.KeepsCarves L) : a.ThroughCreate L := by
  cases a with
  | updatePool req force =>
    cases force with
    | true => exact h
    | false => trivial
  | _ => trivial

theorem lineage_put_absent {k : Key} {o : Object} (habsent : L.objects k = none) (ho : Object.lineage o = none) :
    lineage (L.put k o) = lineage L := by
  rw [lineage_put, ho, ← lineage_absent habsent, Function.update_eq_self]

theorem ranges_put_absent {k k' : Key} {o : Object} (habsent : L.objects k = none) (hk' : ranges L k' = true) :
    ranges (L.put k o) k' = true := by
  rw [ranges_put, Function.update_of_ne]
  · exact hk'
  · rintro rfl
    rw [ranges_absent habsent] at hk'
    cases hk'

theorem Change.keepsCarves (h : Change hash L a L') (hs : Shaped (emptySpace hash) L) (ha : a.KeepsCarves L) :
    a.KeepsCarves L' := by
  cases h with
  | forcePool _ habsent => exact absurd habsent ha
  | @updatePool req force _ _ _ =>
    cases force with
    | false => trivial
    | true => simp [Action.KeepsCarves, Ledger.put]
  | dropReservations _ _ _ => exact fun r hr => ha r (List.mem_filter.mp hr).1
  | removeRoot _ _ _ => exact ha
  | @deleteChild project name _ _ _ _ _ _ =>
    intro r hr hkey
    have hpool : Row.OfPool r := by
      simp only [Row.OfPool, hkey]
      rfl
    have hmem : r ∈ (released _ _).rows := hr
    rw [mem_released (hs.drop _) hpool, drop_ofPool hs hpool] at hmem
    exact ha r hmem.1 hkey
  | removePool _ _ _ => exact fun name hname pool hpool => ha name hname pool (Ledger.remove_objects.mp hpool).2
  | _ => trivial

theorem Change.poolStep (h : Change hash L a L') (hc : Consistent L) (hs : Shaped (emptySpace hash) L)
    (hL : Holding L) (ha : a.ThroughCreate L) : PoolStep (a.KeepsCarves L) L L' := by
  have hother : ∀ {k}, Key.resource k ≠ some .ipclaims → ranges L k = false := by
    intro k hk
    by_contra hrange
    exact hk (resource_of_ranges hs (by simpa using hrange))
  cases h with
  | createClass _ habsent => exact .put_absent hL habsent rfl
  | forceClass _ habsent => exact .put_absent hL habsent rfl
  | updateClass hstored _ => exact .put_stored hL hstored rfl id
  | removeClass _ => exact .remove_other hL hs (by rintro ⟨⟩) fun _ _ _ => .inr (hother (by rintro ⟨⟩))
  | createRoot hroot _ _ habsent =>
    apply PoolStep.put_root hL habsent
    rw [preparePoolForCreate_core]
    exact hroot
  | @authorChild req parent mid carved pool block b hchild _ htaken habsent =>
    have hobjects := (taken_objects htaken).1
    rw [hobjects] at habsent
    refine @PoolStep.plant _ _ _ hL ((req.prefixRequest parent).row (emptySpace hash) b)
      { preparePoolForCreate req.pool with allocatedCIDR := some b }.core habsent rfl rfl _ htaken.stored
      (fun r hr => Taken.ofPool htaken hr) ?_ ?_ rfl
    · simp only [Ledger.put, hobjects]
      rfl
    · have hparent := congrArg IPPool.parentPoolRef (preparePoolForCreate_core req.pool)
      exact hparent.trans hchild
  | forcePool _ habsent => exact absurd habsent ha
  | updatePool hstored hvalid =>
    have hedits := edits_of_validateUpdate hvalid
    refine .put_stored hL hstored ?_ ?_
    · simp only [Object.lineage, hedits.parentPoolRef, hedits.allocatedCIDR]
    · intro hfalse
      cases hfalse
  | dropReservations _ _ _ => exact .same hL rfl (fun r hr => drop_ofPool hs hr) fun _ _ hk _ _ _ => hk
  | removeRoot hstored hroot _ => exact .remove_pool hL hs rfl hstored fun _ => hroot
  | deleteChild _ _ _ => exact .deleteChild hL hs rfl fun htidy => htidy
  | removePool hname hstored _ => exact .remove_pool hL hs rfl hstored fun htidy => htidy _ hname _ hstored
  | @provision req level source n mid carved _ pool block b hplan _ _ hprov =>
    obtain ⟨hobjects, -, habsent⟩ := hprov.objects
    have hstored : L.objects source = some (.pool pool) := hprov.taken.stored
    refine @PoolStep.plant _ _ _ hL (level.carve.row source b) _ habsent ?_ rfl _ hstored
      (fun r hr => Provisioned.ofPool hprov hr) hobjects rfl hprov.taken.text
    change Key.resource level.poolKey = _
    rw [(planLevel_class hplan).2.2.2]
    rfl
  | @bindBlock req class_ poolKey n space mid carved pool block b _ _ _ _ _ _ htaken habsent hclaim =>
    have hobjects := (taken_objects htaken).1
    have hclaim' : (carved.put (req.allocationKey hash) (.allocation (boundAllocation req class_ poolKey
        (effectiveReclaimPolicy class_.spec req.claim.reclaimPolicy) space b))).objects req.key = none := by
      refine (Function.update_of_ne ?_ _ _).trans hclaim
      simp [ClaimRequest.key, ClaimRequest.allocationKey, claimObjectKey, allocationObjectKey]
    refine .same hL ?_ ?_ ?_
    · rw [lineage_put_absent hclaim' rfl, lineage_put_absent habsent rfl]
      funext k
      simp only [lineage, hobjects]
    · intro r hr
      refine (Taken.ofPool htaken hr).trans (or_iff_left ?_)
      rintro rfl
      cases hr
    · intro k r hk _ _ _
      apply ranges_put_absent hclaim'
      apply ranges_put_absent habsent
      simpa only [ranges, hobjects] using hk
  | holdRange htarget _ _ _ _ _ _ _ _ habsent => exact .hold hL habsent htarget
  | forceClaim habsent => exact .put_absent hL habsent rfl
  | updateClaim hstored hvalid =>
    refine .put_stored hL hstored ?_ ?_
    · rfl
    simp only [ipClaimStrategy, Bool.and_eq_true, decide_eq_true_eq] at hvalid
    simp only [Object.ranges, ipClaimStrategy, hvalid.1.2]
    exact id
  | releasing hstored htarget => exact .put_stored hL hstored rfl id
  | releaseClaim hstored htarget hdisposed _ => exact .releaseClaim hL hs hstored htarget hdisposed
  | releaseRange _ _ hmem hheld hpurpose htree hclosed =>
    exact .releaseRange hL hc hs hmem hheld hpurpose rfl htree hclosed
  | removeRangeClaim hstored _ hunheld _ =>
    refine .remove_other hL hs (by rintro ⟨⟩) fun r hr hof => .inl ?_
    exact fun hclaim => hunheld r hr hclaim ((hs.rows r hr).carve_of_claim hof hclaim rfl)
  | forceAllocation habsent => exact .put_absent hL habsent rfl
  | updateAllocation hstored _ => exact .put_stored hL hstored rfl id
  | @freeAllocation req _ hstored _ _ =>
    refine .same hL (lineage_remove_other (hs.drop _) (by rintro ⟨⟩)) ?_ ?_
    · intro r hof
      refine ⟨fun hmem => (List.mem_filter.mp hmem).1, fun hmem => List.mem_filter.mpr ⟨hmem, ?_⟩⟩
      have hne : r.allocationKey ≠ req.allocationKey := by
        intro heq
        simp only [Row.OfPool, heq] at hof
        cases hof
      simpa using hne
    · intro k r hk _ _ _
      rw [ranges_remove_of_ne]
      · exact hk
      · rintro rfl
        cases resource_of_ranges hs hk

end

section

variable {hash : Scope.Text → String} {s : Db}

abbrev CarveRun (hash : Scope.Text → String) : Db → Prop :=
  Served (serve hash) (fun a s => a.KeepsCarves s.ledger) Db.empty

theorem served_corresponds (hs : CarveRun hash s) :
    Consistent s.ledger ∧ Shaped (emptySpace hash) s.ledger ∧ Holding s.ledger ∧ Corresponds s.ledger := by
  refine (@served_inv hash s (fun L => Shaped (emptySpace hash) L ∧ Holding L ∧ Corresponds L)
    (fun a L => a.KeepsCarves L) ?_ ?_ hs).2
  · refine ⟨shaped_empty _, ?_, ?_, ?_⟩
    · simp [Holding, Db.ledger, Db.empty]
    · simp [lineage, Db.ledger, Db.empty, Db.object]
    · simp [carves, Db.ledger, Db.empty]
  · rintro a L L' hc ⟨hshaped, hheld, hcorr⟩ ha hchange
    have hstep := hchange.poolStep hc hshaped hheld ha.throughCreate
    exact ⟨⟨hchange.shaped hc hshaped, hstep.holding, hcorr.step hstep.change ha⟩, hchange.keepsCarves hshaped ha⟩

theorem lineage_of_pool {k : Key} {pool : IPPool} (h : s.pool k = some pool) :
    lineage s.ledger k = some (pool.parentPoolRef, pool.allocatedCIDR) :=
  lineage_stored (pool_of_ledger h)

theorem pool_of_lineage {k : Key} {line : Option String × Option Cidr} (h : lineage s.ledger k = some line) :
    ∃ pool, s.pool k = some pool := by
  cases ho : s.object k with
  | none =>
    rw [lineage_absent (ledger_object_none.mpr ho)] at h
    cases h
  | some o =>
    have hstored : s.ledger.objects k = some (Object.core o) := by simp [Db.ledger, ho]
    rw [lineage_stored hstored] at h
    cases o with
    | pool p => exact ⟨p, by simp [Db.pool, ho]⟩
    | class_ | claim | allocation => cases h

theorem Keyed.filter_eq {rows : List Row} (h : Keyed rows) {r : Row} (hr : r ∈ rows) {p : Row → Bool} (hp : p r = true)
    (hunique : ∀ o ∈ rows, p o = true → o = r) : rows.filter p = [r] := by
  have hall : ∀ o ∈ rows.filter p, o = r := by
    intro o ho
    obtain ⟨ho, hpo⟩ := List.mem_filter.mp ho
    exact hunique o ho hpo
  have hmem : r ∈ rows.filter p := List.mem_filter.mpr ⟨hr, hp⟩
  have hpairwise := (h.filter p).allocationKeys
  cases hlist : rows.filter p with
  | nil =>
    rw [hlist] at hmem
    cases hmem
  | cons first rest =>
    rw [hlist] at hall hpairwise
    obtain rfl := hall first List.mem_cons_self
    cases rest with
    | nil => rfl
    | cons second rest =>
      have hsecond := hall second (List.mem_cons_of_mem _ List.mem_cons_self)
      exact absurd (by rw [hsecond]) ((List.pairwise_cons.mp hpairwise).1 second List.mem_cons_self)

theorem filter_allocationKey {rows : List Row} (h : Keyed rows) {r : Row} (hr : r ∈ rows) :
    rows.filter (fun o => o.allocationKey = r.allocationKey) = [r] :=
  Keyed.filter_eq h hr (by simp) fun _ ho hkey => h.eq_of_allocationKey ho hr (of_decide_eq_true hkey)

theorem pools_carved (hs : CarveRun hash s) :
    (∀ k pool parent, s.pool k = some pool → pool.parentPoolRef = some parent →
      ∃ r, s.rows.filter (fun r => r.allocationKey = k) = [r] ∧ pool.allocatedCIDR = some r.cidr ∧
        keyName r.poolKey = parent ∧ (∃ parentPool, s.pool r.poolKey = some parentPool) ∧
        (r.purpose = .claim → ∃ project name, k = poolStorageKey project name ∧
          r.poolKey = poolStorageKey project parent)) ∧
    ∀ r ∈ s.rows, Key.resource r.allocationKey = some .ippools → ∃ pool, s.pool r.allocationKey = some pool := by
  obtain ⟨hc, hshaped, -, hcorr⟩ := served_corresponds hs
  constructor
  · intro k pool parent hpool hparent
    have hline := lineage_of_pool hpool
    rw [hparent] at hline
    obtain ⟨_, ⟨r, ⟨hr, hof⟩, rfl⟩, hkey⟩ := hcorr.carve k parent _ hline
    obtain rfl : r.allocationKey = k := hkey
    have hrow : lineage s.ledger r.allocationKey = some (some (keyName r.poolKey), some r.cidr) :=
      hcorr.pool r.unclaimed (mem_carves hr hof)
    rw [hline] at hrow
    simp only [Option.some.injEq, Prod.mk.injEq] at hrow
    obtain ⟨rfl, hcidr⟩ := hrow
    obtain ⟨parentPool, range, hstored, -⟩ := hc.pools r hr
    refine ⟨r, filter_allocationKey hc.keyed hr, hcidr, rfl, pool_of_lineage (lineage_stored hstored), ?_⟩
    intro hclaim
    cases hshaped.rows r hr with
    | reservation heq =>
      rw [heq] at hclaim
      cases hclaim
    | child _ _ _ _ _ hhome =>
      obtain ⟨project, name, parent, hkey, hpoolKey⟩ := hhome
      refine ⟨project, name, hkey, ?_⟩
      rw [hpoolKey]
      rfl
    | carve hpurpose _ _ _ _ =>
      rw [hclaim] at hpurpose
      cases hpurpose
    | block _ hkey _ =>
      rw [Row.OfPool, hkey] at hof
      cases hof
  · intro r hr hof
    exact pool_of_lineage (hcorr.pool r.unclaimed (mem_carves hr hof))

end

def carvedOffice : Db :=
  serve byteChars (.createPool (childRequest "east" "office" 25)) servedOffice

theorem pools_carved_east :
    CarveRun byteChars carvedOffice ∧ (carvedOffice.pool (poolStorageKey "infra" "east")).isSome = true ∧
      ∃ r ∈ carvedOffice.rows, r.allocationKey = poolStorageKey "infra" "east" ∧ keyName r.poolKey = "office" := by
  have hrun : CarveRun byteChars carvedOffice := .serve _ (.serve _ .start trivial) trivial
  have hstored : ((carvedOffice.pool (poolStorageKey "infra" "east")).bind IPPool.parentPoolRef) = some "office" := by
    decide +kernel
  obtain ⟨pool, hpool, hparent⟩ := Option.bind_eq_some_iff.mp hstored
  obtain ⟨r, hr, -, hname, -⟩ := (pools_carved hrun).1 _ pool "office" hpool hparent
  have hmem : r ∈ carvedOffice.rows.filter (fun r => r.allocationKey = poolStorageKey "infra" "east") := by
    rw [hr]
    exact List.mem_singleton_self r
  obtain ⟨hmem, hkey⟩ := List.mem_filter.mp hmem
  exact ⟨hrun, by rw [hpool]; rfl, r, hmem, of_decide_eq_true hkey, hname⟩

theorem pools_carved_collection :
    ∃ r ∈ (serve byteChars (.deletePools "infra" true [] ["east"]) carvedOffice).rows,
      Key.resource r.allocationKey = some .ippools ∧
        (serve byteChars (.deletePools "infra" true [] ["east"]) carvedOffice).pool r.allocationKey = none := by
  decide +kernel

end Ipam.Registry
