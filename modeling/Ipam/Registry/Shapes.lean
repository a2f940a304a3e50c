import Ipam.Registry.Growth

namespace Ipam.Registry

open Allocation Allocator Cascade Database Transaction

def Key.resource : Key → Option Resource
  | .object _ resource _ _ => some resource
  | .reservation _ _ => none

def Object.resource : Object → Resource
  | .pool _ => .ippools
  | .class_ _ => .ipclasses
  | .claim _ => .ipclaims
  | .allocation _ => .ipallocations

inductive Row.Shape (ed : String) (r : Row) : Prop where
  | reservation (eq : r = reservationRow ed r.poolKey r.cidr)
  | child (purpose : r.purpose = .claim) (key : Key.resource r.allocationKey = some .ippools)
      (claim : r.claimKey = some r.allocationKey) (policy : r.reclaimPolicy = .delete) (digest : r.scopeDigest = ed)
      (home : ∃ project name parent, r.allocationKey = poolStorageKey project name ∧
        r.poolKey = poolStorageKey project parent)
  | carve (purpose : r.purpose = .poolCarve) (key : Key.resource r.allocationKey = some .ippools)
      (claim : ∀ k, r.claimKey = some k → k = r.allocationKey ∨ Key.resource k = some .ipclaims)
      (held : r.claimKey ≠ none) (policy : r.reclaimPolicy = .delete)
  | block (purpose : r.purpose = .claim) (key : Key.resource r.allocationKey = some .ipallocations)
      (claim : ∀ k, r.claimKey = some k → Key.resource k = some .ipclaims)

namespace Row.Shape

variable {ed : String} {r : Row}

theorem of_carve (h : Row.Shape ed r) (hp : r.purpose = .poolCarve) : Key.resource r.allocationKey = some .ippools := by
  cases h with
  | carve _ hkey _ _ _ => exact hkey
  | reservation heq =>
    rw [heq] at hp
    cases hp
  | child hother _ _ _ _ _ =>
    rw [hp] at hother
    cases hother
  | block hother _ _ =>
    rw [hp] at hother
    cases hother

theorem of_reservation (h : Row.Shape ed r) (hp : r.purpose = .reservation) : r = reservationRow ed r.poolKey r.cidr := by
  cases h with
  | reservation heq => exact heq
  | child hother _ _ _ _ _ =>
    rw [hp] at hother
    cases hother
  | carve hother _ _ _ _ =>
    rw [hp] at hother
    cases hother
  | block hother _ _ =>
    rw [hp] at hother
    cases hother

theorem purpose_ne (h : Row.Shape ed r) {resource : Resource} (hr : Key.resource r.allocationKey = some resource) :
    r.purpose ≠ .reservation := by
  intro hp
  rw [h.of_reservation hp] at hr
  cases hr

theorem policy_delete (h : Row.Shape ed r) (hr : Key.resource r.allocationKey = some .ippools) :
    r.reclaimPolicy = .delete := by
  cases h with
  | reservation heq =>
    rw [heq] at hr
    cases hr
  | child _ _ _ hdelete _ _ => exact hdelete
  | carve _ _ _ _ hdelete => exact hdelete
  | block _ hkey _ =>
    rw [hkey] at hr
    cases hr

theorem carve_of_claim (h : Row.Shape ed r) (hr : Key.resource r.allocationKey = some .ippools) {k : Key}
    (hclaim : r.claimKey = some k) (hk : Key.resource k = some .ipclaims) : r.purpose = .poolCarve := by
  cases h with
  | reservation heq =>
    rw [heq] at hr
    cases hr
  | child _ _ hself _ _ _ =>
    obtain rfl : r.allocationKey = k := Option.some.inj (hself.symm.trans hclaim)
    rw [hr] at hk
    cases hk
  | carve hpurpose _ _ _ _ => exact hpurpose
  | block _ hkey _ =>
    rw [hkey] at hr
    cases hr

end Row.Shape

structure Shaped (ed : String) (L : Ledger) : Prop where
  rows : ∀ r ∈ L.rows, Row.Shape ed r
  objects : ∀ k o, L.objects k = some o → Key.resource k = some (Object.resource o)

namespace Shaped

variable {ed : String} {L L' : Ledger} {k : Key}

theorem put (h : Shaped ed L) {o : Object} (hk : Key.resource k = some (Object.resource o)) :
    Shaped ed (L.put k o) := by
  refine ⟨h.rows, ?_⟩
  intro k' o' ho'
  obtain ⟨rfl, rfl⟩ | ⟨-, hold⟩ := Ledger.put_objects.mp ho'
  · exact hk
  · exact h.objects k' o' hold

theorem remove (h : Shaped ed L) : Shaped ed (L.remove k) :=
  ⟨h.rows, fun k' o ho => h.objects k' o (Ledger.remove_objects.mp ho).2⟩

theorem drop (h : Shaped ed L) (gone : Row → Bool) : Shaped ed (L.drop gone) :=
  ⟨fun r hr => h.rows r (List.mem_filter.mp hr).1, h.objects⟩

theorem clear (h : Shaped ed L) (tree roots : List Key) : Shaped ed (Ledger.clear L tree roots) := by
  refine ⟨fun r hr => h.rows r (List.mem_filter.mp hr).1, ?_⟩
  intro k' o ho
  simp only [Ledger.clear] at ho
  split at ho
  · cases ho
  · exact h.objects k' o ho

theorem retain (h : Shaped ed L) : Shaped ed (Ledger.retain L k) := by
  refine ⟨?_, h.objects⟩
  intro r hr
  obtain ⟨o, ho, rfl⟩ := List.mem_map.mp hr
  have hshape := h.rows o ho
  split
  · rename_i hretained
    simp only [Row.retained, Bool.and_eq_true, decide_eq_true_eq] at hretained
    obtain ⟨hclaim, hpolicy⟩ := hretained
    cases hshape with
    | reservation heq =>
      rw [heq] at hclaim
      cases hclaim
    | child _ _ _ hdelete _ _ =>
      rw [hpolicy] at hdelete
      cases hdelete
    | carve _ _ _ _ hdelete =>
      rw [hpolicy] at hdelete
      cases hdelete
    | block hpurpose hkey _ => exact .block hpurpose hkey fun k hk => nomatch hk
  · exact hshape

theorem released (h : Shaped ed L) : Shaped ed (released L k) :=
  h.retain.drop _

theorem disposed {retained : List Key} {allocation : Option Key} (h : Shaped ed L)
    (hd : Disposed L retained allocation L') : Shaped ed L' := by
  cases hd with
  | unbound => exact h
  | missing _ _ => exact h
  | kept _ hstored =>
    have hkey := h.objects _ _ hstored
    exact h.put hkey
  | removed _ _ => exact h.remove

theorem setClaim (h : Shaped ed L) {claim : Key} (hclaim : Key.resource claim = some .ipclaims) {carve : Row}
    (hkeyed : Keyed L.rows) (hmem : carve ∈ L.rows) (hkey : carve.allocationKey = k)
    (hpurpose : carve.purpose = .poolCarve) : Shaped ed (L.setClaim k (some claim)) := by
  refine ⟨?_, h.objects⟩
  intro r hr
  obtain ⟨o, ho, rfl⟩ := List.mem_map.mp hr
  split
  · rename_i heq
    obtain rfl := hkeyed.eq_of_allocationKey ho hmem (heq.trans hkey.symm)
    cases h.rows o ho with
    | reservation heq =>
      rw [heq] at hpurpose
      cases hpurpose
    | child hother _ _ _ _ _ =>
      rw [hpurpose] at hother
      cases hother
    | carve _ hresource _ _ hdelete =>
      refine .carve hpurpose hresource ?_ (by simp) hdelete
      intro k hk
      obtain rfl := Option.some.inj hk
      exact .inr hclaim
    | block hother _ _ =>
      rw [hpurpose] at hother
      cases hother
  · exact h.rows o ho

theorem taken {digest : String} {row : Cidr → Row} {n : ℤ} {mid : Ledger} {pool : IPPool} {block : IPNet} {b : Cidr}
    (h : Shaped ed L) (htaken : Taken ed k digest n row L mid L' pool block b) (hrow : Row.Shape ed (row b)) :
    Shaped ed L' := by
  refine ⟨?_, by rw [(taken_objects htaken).1]; exact h.objects⟩
  intro r hr
  obtain hr | hreserved | rfl := htaken.mem hr
  · exact h.rows r hr
  · refine .reservation ?_
    rw [hreserved]
    rfl
  · exact hrow

theorem provisioned {level : CascadeLevel} {source : Key} {n : ℤ} {mid carved : Ledger} {pool : IPPool} {block : IPNet}
    {b : Cidr} (h : Shaped ed L) (hprov : Provisioned ed level source n L mid carved L' pool block b)
    (hkey : Key.resource level.poolKey = some .ippools) : Shaped ed L' := by
  constructor
  · intro r hr
    obtain hr | ⟨k, hreserved⟩ | rfl := hprov.mem hr
    · exact h.rows r hr
    · refine .reservation ?_
      rw [hreserved]
      rfl
    · refine .carve rfl hkey ?_ (by simp [PoolCarve.row]) rfl
      intro k hk
      exact .inl (Option.some.inj hk).symm
  · intro k o ho
    rw [hprov.objects.1] at ho
    by_cases hk : k = level.poolKey
    · subst hk
      rw [Function.update_self] at ho
      obtain rfl := Option.some.inj ho
      exact hkey
    · rw [Function.update_of_ne hk] at ho
      exact h.objects k o ho

end Shaped

section

variable {hash : Scope.Text → String} {L L' : Ledger} {a : Action}

theorem searchDigest_empty (ed : String) : searchDigest ed "" = ed := if_pos rfl

theorem Change.shaped (h : Change hash L a L') (hc : Consistent L) (hs : Shaped (emptySpace hash) L) :
    Shaped (emptySpace hash) L' := by
  cases h with
  | createClass _ _ => exact hs.put rfl
  | forceClass _ _ => exact hs.put rfl
  | updateClass _ _ => exact hs.put rfl
  | removeClass _ => exact hs.remove
  | createRoot _ _ _ _ => exact hs.put rfl
  | authorChild _ _ htaken _ =>
    exact (hs.taken htaken (.child rfl rfl rfl rfl (searchDigest_empty _) ⟨_, _, _, rfl, rfl⟩)).put rfl
  | forcePool _ _ => exact hs.put rfl
  | updatePool _ _ => exact hs.put rfl
  | dropReservations _ _ _ => exact hs.drop _
  | removeRoot _ _ _ => exact hs.remove
  | deleteChild _ _ _ => exact (hs.drop _).released.remove
  | removePool _ _ _ => exact hs.remove
  | provision hplan _ _ hprov =>
    apply hs.provisioned hprov
    rw [(planLevel_class hplan).2.2.2]
    rfl
  | bindBlock _ _ _ _ _ _ htaken _ _ =>
    refine ((hs.taken htaken (.block rfl rfl ?_)).put rfl).put rfl
    intro k hk
    obtain rfl := Option.some.inj hk
    rfl
  | holdRange _ _ _ _ hmem hkey hpurpose _ _ _ => exact (hs.setClaim rfl hc.keyed hmem hkey hpurpose).put rfl
  | forceClaim _ => exact hs.put rfl
  | updateClaim _ _ => exact hs.put rfl
  | releasing _ _ => exact hs.put rfl
  | releaseClaim _ _ hdisposed _ => exact (hs.released.disposed hdisposed).remove
  | releaseRange _ _ _ _ _ _ _ => exact (hs.clear _ _).remove
  | removeRangeClaim _ _ _ _ => exact hs.remove
  | forceAllocation _ => exact hs.put rfl
  | updateAllocation _ _ => exact hs.put rfl
  | freeAllocation _ _ _ => exact (hs.drop _).remove

theorem shaped_empty (ed : String) : Shaped ed Db.empty.ledger :=
  ⟨by simp [Db.ledger, Db.empty], by simp [Db.ledger, Db.empty, Db.object]⟩

end

end Ipam.Registry
