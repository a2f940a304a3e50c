import Ipam.Registry.ClassProvenance
import Ipam.Registry.RootPools
import Ipam.Registry.Server

namespace Ipam.Registry

open Allocation Allocator Cascade Database Transaction

section

variable {hash : Scope.Text → String} {L L' : Ledger}

theorem released_consistent (h : Consistent L) (claim : Key) : Consistent (released L claim) :=
  (h.retain claim).drop _

theorem Disposed.consistent {retained : List Key} {k : Option Key} (h : Consistent L) (hd : Disposed L retained k L') :
    Consistent L' := by
  cases hd with
  | unbound => exact h
  | missing _ _ => exact h
  | kept _ hk =>
    apply h.put
    intro pool hpool
    rw [hk] at hpool
    cases hpool
  | removed _ hempty => exact h.remove hempty

theorem provisioned_consistent {ed : String} {level : CascadeLevel} {source : Key} {n : ℤ} {mid carved : Ledger}
    {pool : IPPool} {block : IPNet} {b : Cidr} (h : Consistent L)
    (hprov : Provisioned ed level source n L mid carved L' pool block b) : Consistent L' := by
  obtain ⟨hobjects, hids, habsent⟩ := hprov.objects
  have hblock : IPPool.range (newProvisionedPool level (keyName source) n block).core = some b.net := by
    simp only [IPPool.range, IPPool.core, newProvisionedPool, hprov.taken.text]
  -- the identity precedes the pool that it names, so the rows are looked at without it
  have hnamed : RowsStored (L.name (level.identity level.poolKey)) := ⟨h.keyed, h.pools⟩
  have hrow : ∀ b, (level.carve.row source b).poolKey = source := fun _ => rfl
  have hcarved := hnamed.taken hrow hprov.taken
  have hrows := (hcarved.put_absent _ hprov.absent).reserves hprov.materialised.reserves
    (Function.update_self _ _ _) hblock
  refine ⟨hrows.keyed, hrows.pools, ?_⟩
  intro i hi
  rw [hids] at hi
  rw [hobjects]
  cases List.mem_append.mp hi with
  | inl hi =>
    obtain ⟨pool, hstored⟩ := h.identities i hi
    refine ⟨pool, (Function.update_of_ne ?_ _ _).trans hstored⟩
    intro heq
    rw [heq, habsent] at hstored
    cases hstored
  | inr hi =>
    rw [List.mem_singleton.mp hi]
    exact ⟨_, Function.update_self _ _ _⟩

theorem clear_consistent {tree roots : List Key} (h : Consistent L) : Consistent (Ledger.clear L tree roots) := by
  refine ⟨h.keyed.filter _, ?_, ?_⟩
  · intro r hr
    obtain ⟨hmem, hkeep⟩ := List.mem_filter.mp hr
    obtain ⟨pool, range, hstored, hrange⟩ := h.pools r hmem
    simp only [decide_eq_true_eq] at hkeep
    exact ⟨pool, range, (if_neg hkeep.1).trans hstored, hrange⟩
  · intro i hi
    obtain ⟨hmem, hkeep⟩ := List.mem_filter.mp hi
    obtain ⟨pool, hstored⟩ := h.identities i hmem
    simp only [decide_eq_true_eq] at hkeep
    exact ⟨pool, (if_neg hkeep).trans hstored⟩

theorem rows_remain {k : Key} (hempty : ∀ r ∈ L.rows, r.poolKey = k → r.purpose = .reservation) :
    ∀ r ∈ (released (L.drop (DeleteCond.matches (.reservationsOf k))) k).rows, r.poolKey ≠ k := by
  intro r hr heq
  obtain ⟨hmem, -⟩ := List.mem_filter.mp hr
  obtain ⟨o, ho, rfl⟩ := List.mem_map.mp hmem
  have hpool : o.poolKey = k := by
    split at heq
    · exact heq
    · exact heq
  obtain ⟨ho, hkeep⟩ := List.mem_filter.mp ho
  simp [DeleteCond.matches, hpool, hempty o ho hpool] at hkeep

theorem Change.consistent {a : Action} (h : Consistent L) (hchange : Change hash L a L') : Consistent L' := by
  have hother : ∀ {k : Key} {o : Object}, L.objects k = some o → (∀ pool, o ≠ .pool pool) → ∀ o', Consistent (L.put k o') := by
    intro k o hk hne o'
    apply h.put
    intro pool hpool
    rw [hk] at hpool
    exact absurd (Option.some.inj hpool) (hne pool)
  cases hchange with
  | createClass _ habsent => exact h.put_absent _ habsent
  | forceClass _ habsent => exact h.put_absent _ habsent
  | updateClass hstored _ => exact hother hstored (by simp) _
  | removeClass hempty => exact h.remove hempty
  | createRoot _ _ _ habsent => exact h.put_absent _ habsent
  | @authorChild req parent mid carved pool block b _ _ htaken habsent =>
    have hrow : ∀ b, ((req.prefixRequest parent).row (emptySpace hash) b).poolKey = poolStorageKey req.project parent :=
      fun _ => rfl
    exact (h.taken hrow htaken).put_absent _ habsent
  | forcePool _ habsent => exact h.put_absent _ habsent
  | @updatePool req _ old hstored hvalid =>
    apply h.put
    intro pool hpool
    obtain rfl : old = pool := by simpa [hstored] using hpool
    refine ⟨_, rfl, ?_⟩
    simp only [ipPoolStrategy, Bool.and_eq_true, decide_eq_true_eq] at hvalid
    simp only [IPPool.range, IPPool.core, ipPoolStrategy, hvalid.1.1.1.2]
    exact id
  | dropReservations _ _ _ => exact h.drop _
  | removeRoot _ _ hempty => exact h.remove hempty
  | deleteChild _ _ hempty => exact (released_consistent (h.drop _) _).remove (rows_remain hempty)
  | removePool _ _ hempty => exact h.remove hempty
  | provision _ _ _ hprov => exact provisioned_consistent h hprov
  | @bindBlock req class_ poolKey n space mid carved pool block b _ _ _ _ _ _ htaken habsent hclaim =>
    have hrow : ∀ b, ((blockRequest hash req poolKey n (effectiveReclaimPolicy class_.spec req.claim.reclaimPolicy)
        space.2).row (emptySpace hash) b).poolKey = poolKey := fun _ => rfl
    refine ((h.taken hrow htaken).put_absent _ habsent).put_absent _ ?_
    refine (Function.update_of_ne ?_ _ _).trans hclaim
    simp [ClaimRequest.key, ClaimRequest.allocationKey, claimObjectKey, allocationObjectKey]
  | holdRange _ _ _ _ _ _ _ _ hfree habsent => exact (h.setClaim hfree).put_absent _ habsent
  | forceClaim habsent => exact h.put_absent _ habsent
  | updateClaim hstored _ => exact hother hstored (by simp) _
  | releasing hstored _ => exact hother hstored (by simp) _
  | releaseClaim _ _ hdisposed hempty => exact (hdisposed.consistent (released_consistent h _)).remove hempty
  | @releaseRange req claim carve tree hstored _ hmem _ _ htree hclosed =>
    apply (clear_consistent h).remove
    intro r hr heq
    obtain ⟨pool, range, hpool, -⟩ := h.pools r (List.mem_filter.mp hr).1
    rw [heq, hstored] at hpool
    cases hpool
  | removeRangeClaim _ _ _ hempty => exact h.remove hempty
  | forceAllocation habsent => exact h.put_absent _ habsent
  | updateAllocation hstored _ => exact hother hstored (by simp) _
  | @freeAllocation req a _ _ hempty =>
    apply (h.drop _).remove
    intro r hr
    obtain ⟨hmem, hne⟩ := List.mem_filter.mp hr
    exact hempty r hmem (by simpa using hne)

end

end Ipam.Registry
