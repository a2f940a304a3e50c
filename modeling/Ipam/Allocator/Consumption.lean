import Ipam.Allocator.PoolTransactions

namespace Ipam.Allocator

open Allocation Database Transaction

def reservationsIn (rows : List Row) : List Row :=
  rows.filter fun r => r.purpose = .reservation

structure Counted (k : Key) (p : Cidr) (x : PoolState) : Prop where
  based : Based k p x
  keys : (x.rows.map Row.allocationKey).Nodup
  apart : (reservationsIn x.rows).Pairwise fun r o => r.cidr.overlaps o.cidr = false
  -- several reservations are released by one statement, which must find a total to subtract from
  recorded : reservationsIn x.rows ≠ [] → x.consumed ≠ none
  total : ∀ v, x.consumed = some v → v = consumption p (PoolState.cidrs x)

section

variable {emptyDigest : String} {k : Key} {p : Cidr} {x y : PoolState}

theorem Counted.total_eq (h : Counted k p x) : PoolState.total x p = consumption p (PoolState.cidrs x) := by
  simp only [PoolState.total]
  cases hc : x.consumed with
  | none => rfl
  | some v => exact h.total v hc

theorem Counted.record (h : Counted k p x) {r : Row} (hk : r.poolKey = k) (hb : r.cidr.CutFrom p)
    (hadm : Admitted x r)
    (hapart : r.purpose = .reservation → ∀ o ∈ x.rows, o.cidr.overlaps r.cidr = false) :
    Counted k p (PoolState.record x p r) := by
  refine ⟨h.based.record hk hb, ?_, ?_, by simp [PoolState.record], ?_⟩
  · have hnew : r.allocationKey ∉ x.rows.map Row.allocationKey := by
      intro hmem
      obtain ⟨o, ho, hkey⟩ := List.mem_map.mp hmem
      exact hadm.key o ho hkey
    simp only [PoolState.record, PoolState.addRow, List.map_append, List.map_cons, List.map_nil]
    exact List.nodup_append.mpr ⟨h.keys, List.nodup_singleton _, by
      rintro a ha b hb rfl
      rw [List.mem_singleton.mp hb] at ha
      exact hnew ha⟩
  · simp only [PoolState.record, PoolState.addRow, reservationsIn, List.filter_append]
    apply List.pairwise_append.mpr
    refine ⟨h.apart, ?_, ?_⟩
    · exact (List.pairwise_singleton _ _).sublist List.filter_sublist
    · intro o ho b hb
      obtain ⟨hb, hpurpose⟩ := List.mem_filter.mp hb
      rw [List.mem_singleton.mp hb] at hpurpose ⊢
      exact hapart (of_decide_eq_true hpurpose) o (List.mem_filter.mp ho).1
  · intro v hv
    obtain rfl := Option.some.inj hv
    have hcidrs : PoolState.cidrs (PoolState.record x p r) = PoolState.cidrs x ++ [r.cidr] := by
      simp only [PoolState.cidrs, PoolState.record, PoolState.addRow, List.map_append, List.map_cons, List.map_nil,
        Row.unclaimed]
    rw [hcidrs, consumption_append, h.total_eq]

theorem Counted.step (h : Counted k p x) (hstep : PoolStep emptyDigest k p x y) : Counted k p y := by
  have hbased := h.based.step hstep
  cases hstep with
  | reserve hb hadm hapart => exact h.record rfl hb hadm fun _ => hapart
  | allocate hk hp hb hadm _ => exact h.record hk hb hadm fun hres => absurd hres hp
  | publish _ _ => exact ⟨hbased, h.keys, h.apart, h.recorded, h.total⟩
  | seedFloor _ _ => exact ⟨hbased, h.keys, h.apart, h.recorded, h.total⟩
  | raiseFloor _ _ _ _ => exact ⟨hbased, h.keys, h.apart, h.recorded, h.total⟩

theorem Removed.mem_cidrs {released : List Row} (h : Removed released x y)
    (hkeys : (x.rows.map Row.allocationKey).Nodup) (c : Cidr) :
    c ∈ PoolState.cidrs x ↔ c ∈ PoolState.cidrs y ++ released.map Row.cidr := by
  rw [PoolState.cidrs, PoolState.cidrs, h.rows, List.mem_append]
  constructor
  · intro hc
    obtain ⟨r, hr, rfl⟩ := List.mem_map.mp hc
    by_cases hkey : r.allocationKey ∈ released.map Row.allocationKey
    · obtain ⟨o, ho, heq⟩ := List.mem_map.mp hkey
      have hsame : r = o.unclaimed := List.inj_on_of_nodup_map hkeys hr (h.present o ho) heq.symm
      rw [hsame]
      exact Or.inr (List.mem_map.mpr ⟨o, ho, rfl⟩)
    · exact Or.inl (List.mem_map_of_mem (List.mem_filter.mpr ⟨hr, decide_eq_true hkey⟩))
  · rintro (hc | hc)
    · obtain ⟨r, hr, rfl⟩ := List.mem_map.mp hc
      exact List.mem_map_of_mem (List.mem_filter.mp hr).1
    · obtain ⟨r, hr, rfl⟩ := List.mem_map.mp hc
      exact List.mem_map.mpr ⟨r.unclaimed, h.present r hr, rfl⟩

theorem Released.apart {past : PoolState} {released : List Row} (h : Released k past released)
    (hpast : Counted k p past) : (released.map Row.cidr).Pairwise fun c d => c.overlaps d = false := by
  rcases h.kind with hone | hres
  · match released, hone with
    | [], _ => exact List.Pairwise.nil
    | [r], _ => exact List.pairwise_singleton _ _
  · have hall : reservationsIn (released.map Row.unclaimed) = released.map Row.unclaimed := by
      apply List.filter_eq_self.mpr
      intro r hr
      obtain ⟨o, ho, rfl⟩ := List.mem_map.mp hr
      exact decide_eq_true (hres o ho)
    have hsub : (released.map Row.unclaimed).Sublist (reservationsIn past.rows) := by
      rw [← hall]
      exact h.rows.filter _
    have hpair := hpast.apart.sublist hsub
    rw [List.pairwise_map] at hpair ⊢
    exact hpair

theorem foldl_releaseTotal (cs : List Cidr) (released : List Row) (v : ℕ) :
    released.foldl (fun total r => some (releaseTotal p cs total r.cidr)) (some v) =
      some (v - ((released.map Row.cidr).map (newly p cs)).sum) := by
  induction released generalizing v with
  | nil => simp
  | cons r rest ih =>
    rw [List.foldl_cons, releaseTotal, ih, List.map_cons, List.map_cons, List.sum_cons, Nat.sub_sub]

theorem Counted.release {released : List Row} {past z : PoolState} (hpast : Counted k p past)
    (hreleased : Released k past released) (h : Counted k p x) (hremoved : Removed released x y)
    (hsettles : Settles p released y z) : Counted k p z := by
  have hsub : z.rows.Sublist x.rows := by
    rw [hsettles.rows, hremoved.rows]
    exact List.filter_sublist
  have hcidrs : PoolState.cidrs z = PoolState.cidrs y := by rw [PoolState.cidrs, hsettles.rows]; rfl
  have hconsumed : ∃ v, z.consumed = some v ∧ v = consumption p (PoolState.cidrs z) := by
    rw [hsettles.consumed, hremoved.consumed, hcidrs]
    cases hc : x.consumed with
    | some v =>
      have hv : v = consumption p (PoolState.cidrs y) +
          ((released.map Row.cidr).map (newly p (PoolState.cidrs y))).sum := by
        rw [h.total v hc, consumption_congr (hremoved.mem_cidrs h.keys),
          consumption_append_of_apart (hreleased.apart hpast)]
      refine ⟨_, foldl_releaseTotal _ released v, ?_⟩
      omega
    | none =>
      -- without a total there are no reservations, so one row was released and the rest is measured afresh
      cases released with
      | nil => exact absurd rfl hreleased.nonempty
      | cons r rest =>
        cases rest with
        | nil => exact ⟨_, rfl, rfl⟩
        | cons o rest =>
          rcases hreleased.kind with hone | hres
          · simp at hone
          · have hmem : r.unclaimed ∈ reservationsIn x.rows := by
              apply List.mem_filter.mpr
              exact ⟨hremoved.present r List.mem_cons_self, decide_eq_true (hres r List.mem_cons_self)⟩
            exact absurd hc (h.recorded (List.ne_nil_of_mem hmem))
  obtain ⟨v, hz, hv⟩ := hconsumed
  refine ⟨hsettles.based (hremoved.based h.based), h.keys.sublist (hsub.map _), h.apart.sublist (hsub.filter _),
    fun _ => by simp [hz], ?_⟩
  intro w hw
  obtain rfl : v = w := Option.some.inj (hz.symm.trans hw)
  exact hv

theorem Published.release {released : List Row} {z : PoolState} (h : Published p x)
    (hremoved : Removed released x y) (hsettles : Settles p released y z) : Published p z := by
  rcases hsettles.published with rfl | hpub
  · intro v hv
    rw [hremoved.consumed] at hv
    rw [hremoved.pool]
    exact h v hv
  · exact hpub

theorem counted_kept (strict : Bool) (emptyDigest : String) (k : Key) (p : Cidr) :
    Kept strict emptyDigest k p (fun x => Counted k p x ∧ Published p x) (fun _ _ _ => True) where
  based := fun _ h => h.1.based
  steps := fun _ _ h hsteps hpub => ⟨hsteps.preserves (fun _ _ h hs => h.step hs) h.1, hpub h.2⟩
  lowers := lowers_trivial
  release := fun _ _ _ _ _ hpast hreleased h hremoved _ hsettles =>
    ⟨hpast.1.release hreleased h.1 hremoved hsettles, h.2.release hremoved hsettles⟩

theorem Fresh.counted {s : Db} (h : Fresh k p s) : Counted k p (s.poolState k) ∧ Published p (s.poolState k) := by
  have hrows : (s.poolState k).rows = [] := h.rows
  have hnone : (s.poolState k).consumed = none := h.consumed
  refine ⟨⟨h.based, by simp [hrows], by simp [hrows, reservationsIn], by simp [hrows, reservationsIn], ?_⟩, ?_⟩
  · intro v hv
    rw [hnone] at hv
    cases hv
  · intro v hv
    rw [hnone] at hv
    cases hv

end

theorem cidrs_poolState (s : Db) (k : Key) :
    PoolState.cidrs (s.poolState k) = (s.rows.filter fun r => r.poolKey = k).map Row.cidr := by
  simp only [PoolState.cidrs, Db.poolState, Db.poolRows, List.map_map]
  rfl

theorem consumed_committed (emptyDigest : String) (k : Key) (p : Cidr) (init : Db) (hinit : Fresh k p init)
    (w : World Stmt Res Err Db Effect Lock)
    (hw : Reachable postgres Lock.conflicts (PoolTxn emptyDigest) (fun _ _ => True) init w) (v : ℕ)
    (hv : w.committed.consumed k = some v) :
    v = consumption p ((w.committed.rows.filter fun r => r.poolKey = k).map Row.cidr) ∧
      ∃ pool capacity, w.committed.pool k = some pool ∧ pool.capacity = some capacity ∧ capacity.allocated = v ∧
        capacity.total = p.size ∧ capacity.allocated + capacity.available = capacity.total := by
  rw [← Lock.conflictsWith_false] at hw
  obtain ⟨hcounted, hpub⟩ := (counted_kept false emptyDigest k p).reachable hinit.counted hw
  have htotal := hcounted.total v hv
  rw [cidrs_poolState] at htotal
  refine ⟨htotal, ?_⟩
  obtain ⟨pool, hpool, hcapacity⟩ := hpub v hv
  refine ⟨pool, _, hpool, hcapacity, rfl, rfl, ?_⟩
  have hle : v ≤ p.size := htotal ▸ consumption_le p _
  simp only
  omega

def reservedDb : Db :=
  { Db.empty with objects := [(officeKey, .pool { poolOf officePool .firstFit with reservations := some ⟨32, 2, 1⟩ })] }

theorem reservedDb_fresh : Fresh officeKey officePool reservedDb := by
  refine ⟨⟨{ poolOf officePool .firstFit with reservations := some ⟨32, 2, 1⟩ }, ?_, rfl⟩, rfl, rfl, rfl⟩
  simp [reservedDb, Db.pool, Db.object]

def reservedTxns : List (Tx Unit) :=
  [(allocatePrefix "none" (claimOf officeKey "a" "tenant" 28)).void,
    (allocatePrefix "none" (claimOf officeKey "b" "other" 27)).void,
    (release (.object "infra" .ipclaims "" "a")).void]

theorem reservedTxns_allowed : ∀ p ∈ reservedTxns, PoolTxn "none" p := by
  simp only [reservedTxns, List.forall_mem_cons]
  exact ⟨.allocatePrefix _, .allocatePrefix _, .release _, by simp⟩

theorem consumed_committed_reserved :
    ∃ w : World Stmt Res Err Db Effect Lock, w.committed.consumed officeKey = some 35 ∧
      35 = consumption officePool ((w.committed.rows.filter fun r => r.poolKey = officeKey).map Row.cidr) ∧
      ∃ pool capacity, w.committed.pool officeKey = some pool ∧ pool.capacity = some capacity ∧
        capacity.allocated = 35 ∧ capacity.total = officePool.size ∧
        capacity.allocated + capacity.available = capacity.total := by
  have hreach : ∃ w, Reachable postgres Lock.conflicts (PoolTxn "none") (fun _ _ => True) reservedDb w ∧
      decide (w.committed.consumed officeKey = some 35) = true :=
    Reachable.exists_of_runAll (f := fun s : Db => decide (s.consumed officeKey = some 35)) (fun _ _ _ => trivial)
      (fun _ _ _ => trivial) (fun _ _ _ => trivial) reservedTxns_allowed (by decide +kernel)
  obtain ⟨w, hw, hconsumed⟩ := hreach
  have hv := of_decide_eq_true hconsumed
  exact ⟨w, hv, consumed_committed "none" officeKey officePool reservedDb reservedDb_fresh w hw 35 hv⟩

end Ipam.Allocator
