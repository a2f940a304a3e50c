import Ipam.Registry.Carves
import Ipam.Registry.Conformance

namespace Ipam.Registry

open Allocation Allocator Cascade Database Transaction

def Row.Backs (r : Row) : Prop :=
  Key.resource r.allocationKey = some .ipallocations

structure Held (L : Ledger) (tenant namespace_ name : String) (c : IPClaim) (r : Row) : Prop where
  mem : r ∈ L.rows
  claim : r.claimKey = some (claimObjectKey tenant namespace_ name)
  ref : boundKey tenant namespace_ c = some r.allocationKey
  cidr : c.allocatedCIDR = some r.cidr
  pool : c.poolRef = some (keyName r.poolKey)

def Unbound (tenant namespace_ : String) (c : IPClaim) : Prop :=
  c.phase ≠ .bound ∧ boundKey tenant namespace_ c = none

structure Integral (L : Ledger) : Prop where
  allocation : ∀ r ∈ L.rows, Row.Backs r → ∃ a, L.objects r.allocationKey = some (.allocation a) ∧ a.allocatedCIDR = r.cidr
  claim : ∀ tenant namespace_ name c, L.objects (claimObjectKey tenant namespace_ name) = some (.claim c) →
    c.target = .block → Unbound tenant namespace_ c ∨ ∃ r, Held L tenant namespace_ name c r

structure SameBinding (c c' : IPClaim) : Prop where
  target : c'.target = c.target
  ref : c'.boundAllocationRef = c.boundAllocationRef
  cidr : c'.allocatedCIDR = c.allocatedCIDR
  pool : c'.poolRef = c.poolRef
  phase : c'.phase = .bound → c.phase = .bound

section

variable {L L' : Ledger} {k : Key}

theorem Held.backs {tenant namespace_ name : String} {c : IPClaim} {r : Row} (h : Held L tenant namespace_ name c r) :
    Row.Backs r := by
  obtain ⟨ref, -, href⟩ := Option.map_eq_some_iff.mp h.ref
  rw [Row.Backs, ← href]
  rfl

theorem SameBinding.boundKey {tenant namespace_ : String} {c c' : IPClaim} (h : SameBinding c c') :
    boundKey tenant namespace_ c' = boundKey tenant namespace_ c := by
  simp only [Registry.boundKey, h.ref]

theorem SameBinding.unbound {tenant namespace_ : String} {c c' : IPClaim} (h : SameBinding c c')
    (hc : Unbound tenant namespace_ c) : Unbound tenant namespace_ c' :=
  ⟨fun hphase => hc.1 (h.phase hphase), h.boundKey.trans hc.2⟩

theorem SameBinding.held {tenant namespace_ name : String} {c c' : IPClaim} {r : Row} (h : SameBinding c c')
    (hr : Held L tenant namespace_ name c r) (hmem : r ∈ L'.rows) : Held L' tenant namespace_ name c' r :=
  ⟨hmem, hr.claim, h.boundKey.trans hr.ref, h.cidr.trans hr.cidr, h.pool.trans hr.pool⟩

namespace Integral

theorem keeps (h : Integral L)
    (hrows : ∀ r ∈ L'.rows, Row.Backs r → ∃ o ∈ L.rows, o.unclaimed = r.unclaimed)
    (hallocations : ∀ r ∈ L'.rows, Row.Backs r → ∀ a, L.objects r.allocationKey = some (.allocation a) →
      ∃ a', L'.objects r.allocationKey = some (.allocation a') ∧ a'.allocatedCIDR = a.allocatedCIDR)
    (hclaims : ∀ tenant namespace_ name c', L'.objects (claimObjectKey tenant namespace_ name) = some (.claim c') →
      c'.target = .block → Unbound tenant namespace_ c' ∨
        ∃ c, L.objects (claimObjectKey tenant namespace_ name) = some (.claim c) ∧ SameBinding c c' ∧
          ∀ r, Held L tenant namespace_ name c r → r ∈ L'.rows) : Integral L' := by
  refine ⟨?_, ?_⟩
  · intro r hr hbacks
    obtain ⟨o, ho, heq⟩ := hrows r hr hbacks
    have hkey : o.unclaimed.allocationKey = r.unclaimed.allocationKey := congrArg Row.allocationKey heq
    have hcidr : o.unclaimed.cidr = r.unclaimed.cidr := congrArg Row.cidr heq
    simp only [Row.unclaimed] at hkey hcidr
    obtain ⟨a, hstored, ha⟩ := h.allocation o ho (by rw [Row.Backs, hkey]; exact hbacks)
    rw [hkey] at hstored
    obtain ⟨a', hstored', ha'⟩ := hallocations r hr hbacks a hstored
    exact ⟨a', hstored', ha'.trans (ha.trans hcidr)⟩
  · intro tenant namespace_ name c' hstored htarget
    obtain hunbound | ⟨c, hc, hsame, hheld⟩ := hclaims tenant namespace_ name c' hstored htarget
    · exact .inl hunbound
    · obtain hunbound | ⟨r, hr⟩ := h.claim tenant namespace_ name c hc (hsame.target ▸ htarget)
      · exact .inl (hsame.unbound hunbound)
      · exact .inr ⟨r, hsame.held hr (hheld r hr)⟩

theorem refl_binding (c : IPClaim) : SameBinding c c :=
  ⟨rfl, rfl, rfl, rfl, id⟩

theorem aside (h : Integral L) (hrows : ∀ r, Row.Backs r → (r ∈ L'.rows ↔ r ∈ L.rows))
    (hobjects : ∀ k, Key.resource k = some .ipclaims ∨ Key.resource k = some .ipallocations →
      L'.objects k = L.objects k) : Integral L' := by
  apply h.keeps
  · exact fun r hr hbacks => ⟨r, (hrows r hbacks).mp hr, rfl⟩
  · intro r _ hbacks a ha
    exact ⟨a, (hobjects _ (.inr hbacks)).trans ha, rfl⟩
  · intro tenant namespace_ name c hc _
    rw [hobjects _ (.inl rfl)] at hc
    exact .inr ⟨c, hc, refl_binding c, fun r hr => (hrows r hr.backs).mpr hr.mem⟩

theorem put_other (h : Integral L) {o : Object} (hclaim : Key.resource k ≠ some .ipclaims)
    (hallocation : Key.resource k ≠ some .ipallocations) : Integral (L.put k o) := by
  refine h.aside (fun _ _ => Iff.rfl) ?_
  intro k' hk'
  apply Function.update_of_ne
  rintro rfl
  exact hk'.elim hclaim hallocation

theorem remove_other (h : Integral L) (hclaim : Key.resource k ≠ some .ipclaims)
    (hallocation : Key.resource k ≠ some .ipallocations) : Integral (L.remove k) := by
  refine h.aside (fun _ _ => Iff.rfl) ?_
  intro k' hk'
  apply Function.update_of_ne
  rintro rfl
  exact hk'.elim hclaim hallocation

theorem put_claim (h : Integral L) {tenant namespace_ name : String} {c' : IPClaim}
    (hc' : c'.target = .block → Unbound tenant namespace_ c' ∨
      ∃ c, L.objects (claimObjectKey tenant namespace_ name) = some (.claim c) ∧ SameBinding c c') :
    Integral (L.put (claimObjectKey tenant namespace_ name) (.claim c')) := by
  apply h.keeps
  · exact fun r hr _ => ⟨r, hr, rfl⟩
  · intro r _ hbacks a ha
    refine ⟨a, (Function.update_of_ne ?_ _ _).trans ha, rfl⟩
    intro heq
    rw [Row.Backs, heq] at hbacks
    cases hbacks
  · intro tenant' namespace' name' d hd htarget
    obtain ⟨hkey, hobject⟩ | ⟨-, hold⟩ := Ledger.put_objects.mp hd
    · obtain rfl := Object.claim.inj hobject
      obtain ⟨rfl, -, rfl, rfl⟩ := Key.object.inj hkey
      exact (hc' htarget).imp_right fun ⟨c, hc, hsame⟩ => ⟨c, hc, hsame, fun r hr => hr.mem⟩
    · exact .inr ⟨d, hold, refl_binding d, fun r hr => hr.mem⟩

theorem remove_claim (h : Integral L) (hk : Key.resource k = some .ipclaims) : Integral (L.remove k) := by
  apply h.keeps
  · exact fun r hr _ => ⟨r, hr, rfl⟩
  · intro r _ hbacks a ha
    refine ⟨a, (Function.update_of_ne ?_ _ _).trans ha, rfl⟩
    intro heq
    rw [Row.Backs, heq, hk] at hbacks
    cases hbacks
  · intro tenant namespace_ name c hc _
    exact .inr ⟨c, (Ledger.remove_objects.mp hc).2, refl_binding c, fun r hr => hr.mem⟩

theorem put_allocation (h : Integral L) {a : IPAllocation}
    (ha : ∀ o, L.objects k = some o → ∃ old, o = .allocation old ∧ a.allocatedCIDR = old.allocatedCIDR) :
    Integral (L.put k (.allocation a)) := by
  apply h.keeps
  · exact fun r hr _ => ⟨r, hr, rfl⟩
  · intro r _ hbacks old hold
    by_cases heq : r.allocationKey = k
    · rw [heq] at hold ⊢
      obtain ⟨old', hsame, hcidr⟩ := ha _ hold
      obtain rfl := Object.allocation.inj hsame
      exact ⟨a, Function.update_self _ _ _, hcidr⟩
    · exact ⟨old, (Function.update_of_ne heq _ _).trans hold, rfl⟩
  · intro tenant namespace_ name c hc _
    obtain ⟨-, hobject⟩ | ⟨-, hold⟩ := Ledger.put_objects.mp hc
    · cases hobject
    · exact .inr ⟨c, hold, refl_binding c, fun r hr => hr.mem⟩

end Integral

variable {ed digest : String} {n : ℤ} {row : Cidr → Row} {mid carved : Ledger} {pool : IPPool} {block : IPNet} {b : Cidr}

theorem Reserves.backs {parents : List IPNet} (h : Reserves ed k parents L L') {r : Row} (hr : Row.Backs r) :
    r ∈ L'.rows ↔ r ∈ L.rows := by
  refine ⟨fun hmem => (h.mem hmem).resolve_right ?_, h.rows r⟩
  intro heq
  rw [heq] at hr
  cases hr

theorem Taken.backs (h : Taken ed k digest n row L mid L' pool block b) {r : Row} (hr : Row.Backs r) :
    r ∈ L'.rows ↔ r ∈ L.rows ∨ r = row b := by
  obtain ⟨range, -, hmat⟩ := h.reserved
  rw [h.ledger]
  simp only [Ledger.add, List.mem_append, List.mem_singleton, Reserves.backs hmat.reserves hr]

theorem Provisioned.backs {level : CascadeLevel} {source : Key}
    (h : Provisioned ed level source n L mid carved L' pool block b) {r : Row} (hr : Row.Backs r) :
    r ∈ L'.rows ↔ r ∈ L.rows ∨ r = level.carve.row source b := by
  rw [Reserves.backs h.materialised.reserves hr]
  exact Taken.backs h.taken hr

theorem drop_backs {ed : String} (h : Shaped ed L) {r : Row} (hr : Row.Backs r) :
    r ∈ (L.drop (DeleteCond.matches (.reservationsOf k))).rows ↔ r ∈ L.rows := by
  refine ⟨fun hmem => (List.mem_filter.mp hmem).1, fun hmem => List.mem_filter.mpr ⟨hmem, ?_⟩⟩
  simp [DeleteCond.matches, (h.rows r hmem).purpose_ne hr]

theorem Row.Backs.claim_resource {ed : String} {r : Row} (hbacks : Row.Backs r) (h : Row.Shape ed r) {c : Key}
    (hc : r.claimKey = some c) : Key.resource c = some .ipclaims := by
  cases h with
  | block _ _ hclaim => exact hclaim c hc
  | reservation heq =>
    rw [heq] at hbacks
    cases hbacks
  | child _ hkey _ _ _ _ =>
    rw [Row.Backs, hkey] at hbacks
    cases hbacks
  | carve _ hkey _ _ _ =>
    rw [Row.Backs, hkey] at hbacks
    cases hbacks

theorem mem_released_of_ne {r : Row} (hr : r ∈ L.rows) (hclaim : r.claimKey ≠ some k) : r ∈ (released L k).rows := by
  refine List.mem_filter.mpr ⟨List.mem_map.mpr ⟨r, hr, ?_⟩, by simpa using hclaim⟩
  rw [if_neg]
  simp [Row.retained, hclaim]

theorem of_mem_released {r : Row} (hr : r ∈ (released L k).rows) :
    ∃ o ∈ L.rows, o.unclaimed = r.unclaimed ∧ (r = o ∧ o.claimKey ≠ some k ∨ Row.retained k o = true) := by
  obtain ⟨hmap, hclaim⟩ := List.mem_filter.mp hr
  obtain ⟨o, ho, rfl⟩ := List.mem_map.mp hmap
  by_cases hretained : Row.retained k o = true
  · rw [if_pos hretained]
    exact ⟨o, ho, rfl, .inr hretained⟩
  · rw [if_neg hretained] at hclaim ⊢
    exact ⟨o, ho, rfl, .inl ⟨rfl, by simpa using hclaim⟩⟩

theorem released_backs {ed : String} (h : Shaped ed L) (hk : Key.resource k = some .ippools) {r : Row}
    (hr : Row.Backs r) : r ∈ (released L k).rows ↔ r ∈ L.rows := by
  have hne : ∀ o ∈ L.rows, Row.Backs o → o.claimKey ≠ some k := by
    intro o ho hbacks hclaim
    rw [hbacks.claim_resource (h.rows o ho) hclaim] at hk
    cases hk
  refine ⟨?_, fun hmem => mem_released_of_ne hmem (hne r hmem hr)⟩
  intro hmem
  obtain ⟨o, ho, heq, hkept⟩ := of_mem_released hmem
  obtain ⟨rfl, -⟩ | hretained := hkept
  · exact ho
  · have hkey : o.unclaimed.allocationKey = r.unclaimed.allocationKey := congrArg Row.allocationKey heq
    have hbacks : Row.Backs o := by
      rw [Row.Backs, show o.allocationKey = r.allocationKey from hkey]
      exact hr
    simp only [Row.retained, Bool.and_eq_true, decide_eq_true_eq] at hretained
    exact absurd hretained.1 (hne o ho hbacks)

theorem setClaim_backs {claim : Option Key} (hk : Key.resource k = some .ippools) {r : Row} (hr : Row.Backs r) :
    r ∈ (L.setClaim k claim).rows ↔ r ∈ L.rows := by
  have hne : ∀ o, Row.Backs o → o.allocationKey ≠ k := by
    intro o hbacks heq
    rw [Row.Backs, heq, hk] at hbacks
    cases hbacks
  constructor
  · intro hmem
    obtain ⟨o, ho, rfl⟩ := List.mem_map.mp hmem
    by_cases heq : o.allocationKey = k
    · rw [if_pos heq] at hr
      exact absurd heq (hne _ hr)
    · rwa [if_neg heq]
  · exact fun hmem => List.mem_map.mpr ⟨r, hmem, if_neg (hne r hr)⟩

theorem boundKey_resource {tenant namespace_ : String} {c : IPClaim} (h : boundKey tenant namespace_ c = some k) :
    Key.resource k = some .ipallocations := by
  obtain ⟨ref, -, rfl⟩ := Option.map_eq_some_iff.mp h
  rfl

theorem allocationNameFor_ne (hash : Scope.Text → String) (namespace_ name : String) :
    allocationNameFor hash namespace_ name ≠ "" := by
  intro h
  have hlength := congrArg String.length h
  simp only [allocationNameFor, String.length_append] at hlength
  have halloc : "alloc-".length = 6 := by decide
  have hempty : "".length = 0 := by decide
  omega

theorem boundKey_boundClaim (hash : Scope.Text → String) (req : ClaimRequest) (claim : IPClaim) (poolKey : Key) :
    boundKey req.tenant req.namespace_ (boundClaim hash req claim poolKey b) = some (req.allocationKey hash) := by
  have hne := allocationNameFor_ne hash req.namespace_ req.name
  simp [boundKey, boundClaim, Option.filter, hne, ClaimRequest.allocationKey]

theorem resource_ne {k k' : Key} {a b : Resource} (hk : Key.resource k = some a) (hk' : Key.resource k' = some b)
    (hab : a ≠ b) : k ≠ k' := by
  rintro rfl
  exact hab (Option.some.inj (hk.symm.trans hk'))

theorem clear_backs {ed : String} {carve r : Row} {tree : List Key} (hs : Shaped ed L) (hmem : carve ∈ L.rows)
    (hpurpose : carve.purpose = .poolCarve)
    (hclosed : ∀ r ∈ L.rows, r.poolKey ∈ tree → r.purpose = .reservation ∨ Row.derived r ∧ r.allocationKey ∈ tree)
    (hbacks : Row.Backs r) (hr : r ∈ L.rows) : r ∈ (Ledger.clear L tree [carve.allocationKey]).rows := by
  refine List.mem_filter.mpr ⟨hr, ?_⟩
  simp only [decide_eq_true_eq, List.mem_singleton]
  refine ⟨fun hin => ?_, resource_ne hbacks ((hs.rows carve hmem).of_carve hpurpose) (by decide)⟩
  obtain hreservation | hderived := hclosed r hr hin
  · exact (hs.rows r hr).purpose_ne hbacks hreservation
  · exact resource_ne hbacks ((hs.rows r hr).of_carve hderived.1.1) (by decide) rfl

namespace Integral

theorem bindBlock {hash : Scope.Text → String} {req : ClaimRequest} {claim : IPClaim} {poolKey : Key}
    {policy : ReclaimPolicy} {a : IPAllocation} {spaceDigest : String} (h : Integral L)
    (htaken : Taken ed poolKey digest n ((blockRequest hash req poolKey n policy spaceDigest).row ed) L mid carved pool
      block b)
    (habsent : carved.objects (req.allocationKey hash) = none) (ha : a.allocatedCIDR = b) :
    Integral ((carved.put (req.allocationKey hash) (.allocation a)).put req.key
      (.claim (boundClaim hash req claim poolKey b))) := by
  have hobjects := (taken_objects htaken).1
  rw [hobjects] at habsent
  have hkey : req.allocationKey hash ≠ req.key := fun heq => nomatch heq
  have hstored : ∀ k o, k ≠ req.key → k ≠ req.allocationKey hash → L.objects k = o →
      ((carved.put (req.allocationKey hash) (.allocation a)).put req.key
        (.claim (boundClaim hash req claim poolKey b))).objects k = o := by
    intro k o hclaim hallocation ho
    simp only [Ledger.put, Function.update_of_ne hclaim, Function.update_of_ne hallocation, hobjects, ho]
  refine ⟨?_, ?_⟩
  · intro r hr hbacks
    obtain hr | rfl := (Taken.backs htaken hbacks).mp hr
    · obtain ⟨a', hstored', ha'⟩ := h.allocation r hr hbacks
      refine ⟨a', hstored _ _ (resource_ne hbacks rfl (by decide)) ?_ hstored', ha'⟩
      intro heq
      rw [heq, habsent] at hstored'
      cases hstored'
    · refine ⟨a, ?_, ha⟩
      change (Function.update _ req.key _) (req.allocationKey hash) = _
      rw [Function.update_of_ne hkey]
      exact Function.update_self _ _ _
  · intro tenant namespace_ name c hc htarget
    obtain ⟨hck, hobject⟩ | ⟨-, hold⟩ := Ledger.put_objects.mp hc
    · obtain rfl := Object.claim.inj hobject
      obtain ⟨rfl, -, rfl, rfl⟩ := Key.object.inj hck
      have hmem : (blockRequest hash req poolKey n policy spaceDigest).row ed b ∈ carved.rows := by
        rw [htaken.ledger]
        exact List.mem_append_right _ (List.mem_singleton_self _)
      exact .inr ⟨_, hmem, rfl, boundKey_boundClaim hash req claim poolKey, rfl, rfl⟩
    · obtain ⟨-, hobject⟩ | ⟨-, hold⟩ := Ledger.put_objects.mp hold
      · cases hobject
      · rw [hobjects] at hold
        refine (h.claim tenant namespace_ name c hold htarget).imp_right ?_
        rintro ⟨r, hr⟩
        exact ⟨r, (refl_binding c).held hr ((Taken.backs htaken hr.backs).mpr (.inl hr.mem))⟩

theorem releaseClaim {tenant namespace_ name : String} {claim stored : IPClaim} (h : Integral L) (hc : Consistent L)
    (hstored : L.objects (claimObjectKey tenant namespace_ name) = some (.claim stored))
    (hsame : SameBinding claim stored) (htarget : claim.target = .block)
    (hdisposed : Disposed (released L (claimObjectKey tenant namespace_ name))
      (retainedKeys L (claimObjectKey tenant namespace_ name)) (boundKey tenant namespace_ claim) L') :
    Integral (L'.remove (claimObjectKey tenant namespace_ name)) := by
  have hrows := hdisposed.rows
  have hobject : ∀ k, Key.resource k = some .ipclaims → L'.objects k = L.objects k := by
    intro k hk
    cases hallocation : boundKey tenant namespace_ claim with
    | none =>
      rw [hallocation] at hdisposed
      cases hdisposed
      rfl
    | some j =>
      rw [hallocation] at hdisposed
      have hne : k ≠ j := resource_ne hk (boundKey_resource hallocation) (by decide)
      cases hdisposed with
      | missing _ _ => rfl
      | kept _ _ => exact Function.update_of_ne hne _ _
      | removed _ _ => exact Function.update_of_ne hne _ _
  apply h.keeps
  · intro r hr _
    obtain ⟨o, ho, heq, -⟩ := of_mem_released (hrows ▸ hr)
    exact ⟨o, ho, heq⟩
  · intro r hr hbacks a ha
    have hne : r.allocationKey ≠ claimObjectKey tenant namespace_ name := resource_ne hbacks rfl (by decide)
    obtain ⟨o, ho, heq, hkept⟩ := of_mem_released (hrows ▸ hr)
    have hkey : o.unclaimed.allocationKey = r.unclaimed.allocationKey := congrArg Row.allocationKey heq
    simp only [Row.unclaimed] at hkey
    have hremove : (L'.remove (claimObjectKey tenant namespace_ name)).objects r.allocationKey =
        L'.objects r.allocationKey := Function.update_of_ne hne _ _
    rw [hremove]
    cases hallocation : boundKey tenant namespace_ claim with
    | none =>
      rw [hallocation] at hdisposed
      cases hdisposed
      exact ⟨a, ha, rfl⟩
    | some j =>
      rw [hallocation] at hdisposed
      cases hdisposed with
      | missing _ _ => exact ⟨a, ha, rfl⟩
      | @kept _ a' _ ha' =>
        by_cases hj : r.allocationKey = j
        · rw [hj] at ha ⊢
          obtain rfl : a = a' := Object.allocation.inj (Option.some.inj (ha.symm.trans ha'))
          exact ⟨_, Function.update_self _ _ _, rfl⟩
        · exact ⟨a, (Function.update_of_ne hj _ _).trans ha, rfl⟩
      | removed hgone _ =>
        refine ⟨a, (Function.update_of_ne ?_ _ _).trans ha, rfl⟩
        intro hj
        -- the row of the allocation is the claim's own, so it was retained
        obtain hunbound | ⟨r₀, hheld⟩ := h.claim tenant namespace_ name stored hstored (hsame.target.trans htarget)
        · rw [← hsame.boundKey, hunbound.2] at hallocation
          cases hallocation
        · have hj₀ : r₀.allocationKey = j := by
            have href := hheld.ref
            rw [hsame.boundKey, hallocation] at href
            exact (Option.some.inj href).symm
          obtain rfl := hc.keyed.eq_of_allocationKey ho hheld.mem (hkey.trans (hj.trans hj₀.symm))
          obtain ⟨-, hother⟩ | hretained := hkept
          · exact hother hheld.claim
          · exact hgone (List.mem_map.mpr ⟨o, List.mem_filter.mpr ⟨ho, hretained⟩, hj₀⟩)
  · intro tenant' namespace' name' c hc' htarget'
    obtain ⟨hne, hold⟩ := Ledger.remove_objects.mp hc'
    rw [hobject _ rfl] at hold
    refine .inr ⟨c, hold, refl_binding c, fun r hr => ?_⟩
    change r ∈ L'.rows
    rw [hrows]
    apply mem_released_of_ne hr.mem
    rw [hr.claim]
    exact fun heq => hne (Option.some.inj heq)

theorem releaseRange {carve : Row} {claim : Key} {tree : List Key} (h : Integral L) (hs : Shaped ed L)
    (hmem : carve ∈ L.rows) (hpurpose : carve.purpose = .poolCarve) (hclaim : Key.resource claim = some .ipclaims)
    (htree : ∀ x, x ∈ tree ↔ InTree L.rows carve.allocationKey x)
    (hclosed : ∀ r ∈ L.rows, r.poolKey ∈ tree → r.purpose = .reservation ∨ Row.derived r ∧ r.allocationKey ∈ tree) :
    Integral ((Ledger.clear L tree [carve.allocationKey]).remove claim) := by
  apply remove_claim _ hclaim
  apply h.aside
  · intro r hbacks
    exact ⟨fun hr => (List.mem_filter.mp hr).1, clear_backs hs hmem hpurpose hclosed hbacks⟩
  · intro k hk
    refine if_neg fun hin => ?_
    rw [tree_pools hs hmem hpurpose htree hin] at hk
    cases hk with
    | inl hk => cases hk
    | inr hk => cases hk

theorem freeAllocation (h : Integral L)
    (hfree : ∀ r ∈ L.rows, r.allocationKey = k → r.claimKey = none) :
    Integral ((L.drop fun r => r.allocationKey = k).remove k) := by
  apply h.keeps
  · exact fun r hr _ => ⟨r, (List.mem_filter.mp hr).1, rfl⟩
  · intro r hr _ a ha
    have hne : r.allocationKey ≠ k := by simpa using (List.mem_filter.mp hr).2
    exact ⟨a, (Function.update_of_ne hne _ _).trans ha, rfl⟩
  · intro tenant namespace_ name c hc _
    refine .inr ⟨c, (Ledger.remove_objects.mp hc).2, refl_binding c, fun r hr => ?_⟩
    refine List.mem_filter.mpr ⟨hr.mem, ?_⟩
    have hne : r.allocationKey ≠ k := by
      intro heq
      have hnone := hfree r hr.mem heq
      rw [hr.claim] at hnone
      cases hnone
    simpa using hne

end Integral

end

def Action.KeepsBindings (L : Ledger) : Action → Prop
  | .deleteAllocation req => ∀ a, L.objects req.allocationKey = some (.allocation a) → IPAllocation.isBound a = false →
    ∀ r ∈ L.rows, r.allocationKey = req.allocationKey → r.claimKey = none
  | _ => True

section

variable {hash : Scope.Text → String} {L L' : Ledger} {a : Action}

theorem Change.keepsBindings (h : Change hash L a L') (ha : a.KeepsBindings L) : a.KeepsBindings L' := by
  cases h with
  | freeAllocation _ _ _ =>
    intro a' ha'
    exact absurd rfl (Ledger.remove_objects.mp ha').1
  | _ => trivial

theorem Change.integral (h : Change hash L a L') (hc : Consistent L) (hs : Shaped (emptySpace hash) L)
    (hi : Integral L) (ha : a.KeepsBindings L) : Integral L' := by
  have hdropped (k : Key) : Integral (L.drop (DeleteCond.matches (.reservationsOf k))) :=
    hi.aside (fun _ hbacks => drop_backs hs hbacks) fun _ _ => rfl
  cases h with
  | createClass _ _ => exact hi.put_other (by rintro ⟨⟩) (by rintro ⟨⟩)
  | forceClass _ _ => exact hi.put_other (by rintro ⟨⟩) (by rintro ⟨⟩)
  | updateClass _ _ => exact hi.put_other (by rintro ⟨⟩) (by rintro ⟨⟩)
  | removeClass _ => exact hi.remove_other (by rintro ⟨⟩) (by rintro ⟨⟩)
  | createRoot _ _ _ _ => exact hi.put_other (by rintro ⟨⟩) (by rintro ⟨⟩)
  | @authorChild req parent mid carved pool block b _ _ htaken _ =>
    have hcarved : Integral carved := by
      apply hi.aside
      · intro r hbacks
        rw [Taken.backs htaken hbacks]
        refine or_iff_left ?_
        rintro rfl
        cases hbacks
      · exact fun k _ => congrFun (taken_objects htaken).1 k
    exact hcarved.put_other (by rintro ⟨⟩) (by rintro ⟨⟩)
  | forcePool _ _ => exact hi.put_other (by rintro ⟨⟩) (by rintro ⟨⟩)
  | updatePool _ _ => exact hi.put_other (by rintro ⟨⟩) (by rintro ⟨⟩)
  | dropReservations _ _ _ => exact hdropped _
  | removeRoot _ _ _ => exact hi.remove_other (by rintro ⟨⟩) (by rintro ⟨⟩)
  | @deleteChild project name _ _ _ _ _ _ =>
    refine Integral.remove_other ?_ (by rintro ⟨⟩) (by rintro ⟨⟩)
    exact (hdropped _).aside (fun r hbacks => released_backs (hs.drop _) rfl hbacks) fun _ _ => rfl
  | removePool _ _ _ => exact hi.remove_other (by rintro ⟨⟩) (by rintro ⟨⟩)
  | @provision req level source n mid carved L' pool block b hplan _ _ hprov =>
    have hkey : Key.resource level.poolKey = some .ippools := by
      rw [(planLevel_class hplan).2.2.2]
      rfl
    apply hi.aside
    · intro r hbacks
      rw [Provisioned.backs hprov hbacks]
      refine or_iff_left ?_
      rintro rfl
      rw [Row.Backs] at hbacks
      exact absurd (hkey.symm.trans hbacks) (by decide)
    · intro k hk
      rw [hprov.objects.1]
      apply Function.update_of_ne
      rintro rfl
      rw [hkey] at hk
      cases hk with
      | inl hk => cases hk
      | inr hk => cases hk
  | bindBlock _ _ _ _ _ _ htaken habsent _ => exact hi.bindBlock htaken habsent rfl
  | @holdRange req class_ level poolKey carve htarget _ _ _ hmem hkey hpurpose _ _ _ =>
    have hset : Integral (L.setClaim poolKey (some req.key)) := by
      have hpoolKey : Key.resource poolKey = some .ippools := by
        rw [← hkey]
        exact (hs.rows carve hmem).of_carve hpurpose
      exact hi.aside (fun r hbacks => setClaim_backs hpoolKey hbacks) fun _ _ => rfl
    refine hset.put_claim ?_
    intro hblock
    have hrange : (heldRange (req.claimOf class_) poolKey carve.cidr).target = req.claim.target := rfl
    rw [hrange, htarget] at hblock
    cases hblock
  | forceClaim _ => exact hi.put_claim fun _ => .inl ⟨by rintro ⟨⟩, rfl⟩
  | @updateClaim req _ old hstored hvalid =>
    refine hi.put_claim fun _ => .inr ⟨old, hstored, ?_, rfl, rfl, rfl, id⟩
    simp only [ipClaimStrategy, Bool.and_eq_true, decide_eq_true_eq] at hvalid
    exact hvalid.1.2
  | @releasing req claim hstored _ =>
    exact hi.put_claim fun _ => .inr ⟨claim, hstored, rfl, rfl, rfl, rfl, by rintro ⟨⟩⟩
  | @releaseClaim req claim disposed hstored htarget hdisposed _ =>
    exact hi.releaseClaim hc hstored ⟨rfl, rfl, rfl, rfl, by rintro ⟨⟩⟩ htarget hdisposed
  | releaseRange _ _ hmem _ hpurpose htree hclosed => exact hi.releaseRange hs hmem hpurpose rfl htree hclosed
  | removeRangeClaim _ _ _ _ => exact hi.remove_claim rfl
  | @forceAllocation req habsent =>
    refine hi.put_allocation fun o ho => ?_
    rw [habsent] at ho
    cases ho
  | @updateAllocation req _ old hstored _ =>
    refine hi.put_allocation fun o ho => ?_
    obtain rfl := Option.some.inj (hstored.symm.trans ho)
    exact ⟨old, rfl, rfl⟩
  | freeAllocation hstored hunbound _ => exact hi.freeAllocation fun r hr hkey => ha _ hstored hunbound r hr hkey

end

section

variable {hash : Scope.Text → String} {s : Db}

abbrev BindingRun (hash : Scope.Text → String) : Db → Prop :=
  Served (serve hash) (fun a s => a.KeepsBindings s.ledger) Db.empty

theorem served_integral (hs : BindingRun hash s) :
    Consistent s.ledger ∧ Shaped (emptySpace hash) s.ledger ∧ Integral s.ledger := by
  refine (@served_inv hash s (fun L => Shaped (emptySpace hash) L ∧ Integral L) (fun a L => a.KeepsBindings L) ?_ ?_
    hs).2
  · exact ⟨shaped_empty _, by simp [Db.ledger, Db.empty], by simp [Db.ledger, Db.empty, Db.object]⟩
  · rintro a L L' hc ⟨hshaped, hi⟩ ha hchange
    exact ⟨⟨hchange.shaped hc hshaped, hchange.integral hc hshaped hi ha⟩, hchange.keepsBindings ha⟩

theorem claim_of_object {k : Key} {c : IPClaim} (h : s.object k = some (.claim c)) :
    s.ledger.objects k = some (.claim c) := by
  simp only [Db.ledger, h]
  rfl

theorem object_of_allocation {k : Key} {a : IPAllocation} (h : s.ledger.objects k = some (.allocation a)) :
    s.object k = some (.allocation a) := by
  obtain ⟨o, ho, hcore⟩ := Option.map_eq_some_iff.mp h
  cases o with
  | allocation a' =>
    rw [ho]
    exact congrArg some hcore
  | pool | class_ | claim => cases hcore

theorem mem_blocksIn {r : Row} (hr : r ∈ s.rows) : r.cidr ∈ blocksIn r.scopeDigest (s.poolRows r.poolKey) := by
  have hmem : r.unclaimed ∈ s.ledger.poolRows r.poolKey := s.ledger.mem_poolRows hr rfl
  refine List.mem_map.mpr ⟨r.unclaimed, List.mem_filter.mpr ⟨hmem, ?_⟩, rfl⟩
  simp [Row.blocks, Row.unclaimed]

/-- A bound claim has one row, with its block and its pool, and its allocation; and the row of an allocation has its
allocation. So no search in the claim's space takes its block for free. -/
theorem filter_claimKey {rows : List Row} (h : Keyed rows) {r : Row} (hr : r ∈ rows) {k : Key}
    (hk : r.claimKey = some k) : rows.filter (fun o => o.claimKey = some k) = [r] :=
  Keyed.filter_eq h hr (by simpa using hk) fun _ ho hkey => h.eq_of_claimKey ho hr (of_decide_eq_true hkey) hk

theorem boundClaims_backed (hs : BindingRun hash s) :
    (∀ tenant namespace_ name c, s.object (claimObjectKey tenant namespace_ name) = some (.claim c) →
      c.target = .block → c.phase = .bound → ∃ r ref a,
        s.rows.filter (fun r => r.claimKey = some (claimObjectKey tenant namespace_ name)) = [r] ∧
          c.allocatedCIDR = some r.cidr ∧ c.poolRef = some (keyName r.poolKey) ∧ c.boundAllocationRef = some ref ∧
          r.allocationKey = allocationObjectKey tenant namespace_ ref ∧ s.object r.allocationKey = some (.allocation a) ∧
          a.allocatedCIDR = r.cidr ∧ r.cidr ∈ blocksIn r.scopeDigest (s.poolRows r.poolKey)) ∧
    ∀ r ∈ s.rows, r.purpose = .claim → Key.resource r.allocationKey = some .ipallocations →
      ∃ a, s.object r.allocationKey = some (.allocation a) ∧ a.allocatedCIDR = r.cidr := by
  obtain ⟨hc, -, hi⟩ := served_integral hs
  have hallocation : ∀ r ∈ s.rows, Key.resource r.allocationKey = some .ipallocations →
      ∃ a, s.object r.allocationKey = some (.allocation a) ∧ a.allocatedCIDR = r.cidr := by
    intro r hr hbacks
    obtain ⟨a, hstored, hcidr⟩ := hi.allocation r hr hbacks
    exact ⟨a, object_of_allocation hstored, hcidr⟩
  refine ⟨?_, fun r hr _ hbacks => hallocation r hr hbacks⟩
  intro tenant namespace_ name c hstored htarget hphase
  obtain hunbound | ⟨r, hheld⟩ := hi.claim tenant namespace_ name c (claim_of_object hstored) htarget
  · exact absurd hphase hunbound.1
  · obtain ⟨a, ha, hcidr⟩ := hallocation r hheld.mem hheld.backs
    obtain ⟨ref, href, hkey⟩ := Option.map_eq_some_iff.mp hheld.ref
    exact ⟨r, ref, a, filter_claimKey hc.keyed hheld.mem hheld.claim, hheld.cidr, hheld.pool,
      (Option.filter_eq_some_iff.mp href).1, hkey.symm, ha, hcidr, mem_blocksIn hheld.mem⟩

end

def claimedDb : Db :=
  serve byteChars (.createClaim (hostsRequest none)) (hostsDb 0)

def claimAt (s : Db) (k : Key) : Option IPClaim :=
  (s.object k).bind asClaim

theorem object_of_claimAt {s : Db} {k : Key} {c : IPClaim} (h : claimAt s k = some c) : s.object k = some (.claim c) := by
  obtain ⟨o, ho, hc⟩ := Option.bind_eq_some_iff.mp h
  cases o with
  | claim c' =>
    rw [ho]
    exact congrArg (fun c => some (Object.claim c)) (Option.some.inj hc)
  | pool | class_ | allocation => cases hc

theorem boundClaims_backed_web :
    BindingRun byteChars claimedDb ∧ ∃ c r, claimAt claimedDb (claimObjectKey "infra" "default" "web") = some c ∧
      c.phase = .bound ∧
      claimedDb.rows.filter (fun r => r.claimKey = some (claimObjectKey "infra" "default" "web")) = [r] ∧
      c.allocatedCIDR = some r.cidr := by
  have hrun : BindingRun byteChars claimedDb := .serve _ (.serve _ (.serve _ .start trivial) trivial) trivial
  have hbound : ((claimAt claimedDb (claimObjectKey "infra" "default" "web")).map fun c => (c.target, c.phase)) =
      some (.block, .bound) := by
    decide +kernel
  obtain ⟨c, hc, hstate⟩ := Option.map_eq_some_iff.mp hbound
  obtain ⟨htarget, hphase⟩ := Prod.mk.inj hstate
  obtain ⟨r, ref, a, hrow, hcidr, -⟩ :=
    (boundClaims_backed hrun).1 "infra" "default" "web" c (object_of_claimAt hc) htarget hphase
  exact ⟨hrun, c, r, hc, hphase, hrow, hcidr⟩

def unbindRequest : AllocationRequest where
  tenant := "infra"
  namespace_ := "default"
  name := allocationNameFor byteChars "default" "web"
  allocation := ⟨some .v4, "office", "hosts", .claim, none, [], .delete, "infra", hostAddress ⟨0, zero_lt_byte⟩, ""⟩
  admitted := true
  dryRun := []

def freeRequest : DeleteRequest :=
  ⟨"infra", "default", allocationNameFor byteChars "default" "web", true, []⟩

def freedDb : Db :=
  serve byteChars (.deleteAllocation freeRequest) (serve byteChars (.updateAllocation unbindRequest false) claimedDb)

theorem freedDb_served : Served (serve byteChars) (fun _ _ => True) Db.empty freedDb :=
  .serve _ (.serve _ (.serve _ (.serve _ (.serve _ .start trivial) trivial) trivial) trivial) trivial

theorem boundClaims_freed :
    Served (serve byteChars) (fun _ _ => True) Db.empty freedDb ∧
      ((claimAt freedDb (claimObjectKey "infra" "default" "web")).map fun c => (c.target, c.phase)) =
        some (.block, .bound) ∧
      freedDb.rows = [] :=
  ⟨freedDb_served, by decide +kernel, by decide +kernel⟩

end Ipam.Registry
