import Ipam.Allocator.ReleaseLedger

namespace Ipam.Allocator

open Allocation Database Transaction

section

variable {L L' : Ledger}

theorem Consistent.put (h : Consistent L) {k : Key} {o : Object}
    (hk : ∀ pool, L.objects k = some (.pool pool) →
      ∃ pool', o = .pool pool' ∧ (IPPool.range pool ≠ none → IPPool.range pool' ≠ none)) : Consistent (L.put k o) := by
  refine ⟨h.keyed, ?_, ?_⟩
  · intro r hr
    obtain ⟨pool, range, hstored, hrange⟩ := h.pools r hr
    by_cases heq : r.poolKey = k
    · rw [heq] at hstored ⊢
      obtain ⟨pool', rfl, hsome⟩ := hk pool hstored
      obtain ⟨range', hrange'⟩ := Option.ne_none_iff_exists'.mp (hsome (by simp [hrange]))
      exact ⟨pool', range', Function.update_self _ _ _, hrange'⟩
    · exact ⟨pool, range, (Function.update_of_ne heq _ _).trans hstored, hrange⟩
  · intro i hi
    obtain ⟨pool, hstored⟩ := h.identities i hi
    by_cases heq : i.poolKey = k
    · rw [heq] at hstored ⊢
      obtain ⟨pool', rfl, -⟩ := hk pool hstored
      exact ⟨pool', Function.update_self _ _ _⟩
    · exact ⟨pool, (Function.update_of_ne heq _ _).trans hstored⟩

theorem Consistent.put_absent (h : Consistent L) {k : Key} (o : Object) (hk : L.objects k = none) :
    Consistent (L.put k o) := by
  apply h.put
  intro pool hpool
  rw [hk] at hpool
  cases hpool

theorem Consistent.remove (h : Consistent L) {k : Key} (hempty : ∀ r ∈ L.rows, r.poolKey ≠ k) :
    Consistent (L.remove k) := by
  refine ⟨h.keyed, ?_, ?_⟩
  · intro r hr
    obtain ⟨pool, range, hstored, hrange⟩ := h.pools r hr
    exact ⟨pool, range, (Function.update_of_ne (hempty r hr) _ _).trans hstored, hrange⟩
  · intro i hi
    obtain ⟨hmem, hne⟩ := List.mem_filter.mp hi
    obtain ⟨pool, hstored⟩ := h.identities i hmem
    exact ⟨pool, (Function.update_of_ne (of_decide_eq_true hne) _ _).trans hstored⟩

theorem Consistent.map (h : Consistent L) {f : Row → Row} (hkeyed : Keyed (L.rows.map f))
    (hf : ∀ r ∈ L.rows, (f r).poolKey = r.poolKey) : Consistent { L with rows := L.rows.map f } := by
  refine ⟨hkeyed, ?_, h.identities⟩
  intro r hr
  obtain ⟨o, ho, rfl⟩ := List.mem_map.mp hr
  rw [hf o ho]
  exact h.pools o ho

theorem Consistent.retain (h : Consistent L) (claim : Key) : Consistent (Ledger.retain L claim) := by
  apply h.map (h.keyed.retain claim)
  intro r _
  split <;> rfl

theorem Consistent.setClaim (h : Consistent L) {k claim : Key}
    (hfree : ∀ o ∈ L.rows, o.claimKey = some claim → o.allocationKey = k) :
    Consistent (L.setClaim k (some claim)) := by
  apply h.map
  · refine h.keyed.map ?_ ?_
    · intro r _
      split <;> rfl
    · intro r hr o ho hne hsome
      split at hsome
      · rename_i hrk
        rw [if_pos hrk]
        split
        · rename_i hok
          exact absurd (h.keyed.eq_of_allocationKey hr ho (hrk.trans hok.symm)) hne
        · rename_i hok
          exact fun heq => hok (hfree o ho heq.symm)
      · rename_i hrk
        rw [if_neg hrk]
        split
        · exact fun heq => hrk (hfree r hr heq)
        · intro heq
          obtain ⟨c, hc⟩ := Option.ne_none_iff_exists'.mp hsome
          exact hne (h.keyed.eq_of_claimKey hr ho hc (heq.symm.trans hc))
  · intro r _
    split <;> rfl

structure RowsStored (L : Ledger) : Prop where
  keyed : Keyed L.rows
  pools : ∀ r ∈ L.rows, ∃ pool range, L.objects r.poolKey = some (.pool pool) ∧ IPPool.range pool = some range

variable {ed : String} {k : Key} {pool : IPPool} {block range : IPNet} {b : Cidr} {n : ℤ} {mid : Ledger}

theorem RowsStored.add (h : RowsStored L) {r : Row} (hadm : L.Admits r)
    (hstored : L.objects r.poolKey = some (.pool pool)) (hrange : IPPool.range pool = some range) :
    RowsStored (L.add r) := by
  refine ⟨h.keyed.append rfl hadm, ?_⟩
  intro o ho
  cases List.mem_append.mp ho with
  | inl ho => exact h.pools o ho
  | inr ho =>
    rw [List.mem_singleton.mp ho]
    exact ⟨pool, range, hstored, hrange⟩

theorem RowsStored.reserves {parents : List IPNet} (h : RowsStored L) (hres : Reserves ed k parents L L')
    (hstored : L.objects k = some (.pool pool)) (hrange : IPPool.range pool = some range) : RowsStored L' := by
  induction hres with
  | refl => exact h
  | tail hfirst hlast ih =>
    have hobjects := (Reserves.objects hfirst).1
    cases hlast with
    | row hadm _ _ => exact ih.add hadm ((congrFun hobjects k).trans hstored) hrange

theorem RowsStored.taken {digest : String} {row : Cidr → Row} (h : RowsStored L) (hrow : ∀ b, (row b).poolKey = k)
    (htaken : Taken ed k digest n row L mid L' pool block b) : RowsStored L' := by
  obtain ⟨range, hrange, hmat⟩ := htaken.reserved
  have hmid := h.reserves hmat.reserves htaken.stored hrange
  rw [htaken.ledger]
  apply hmid.add htaken.admits _ hrange
  rw [hrow, hmat.reserves.objects.1]
  exact htaken.stored

theorem RowsStored.put_absent (h : RowsStored L) (o : Object) (hk : L.objects k = none) : RowsStored (L.put k o) := by
  refine ⟨h.keyed, ?_⟩
  intro r hr
  obtain ⟨pool, range, hstored, hrange⟩ := h.pools r hr
  have hne : r.poolKey ≠ k := by
    intro heq
    rw [heq, hk] at hstored
    cases hstored
  exact ⟨pool, range, (Function.update_of_ne hne _ _).trans hstored, hrange⟩

theorem taken_objects {digest : String} {row : Cidr → Row} (h : Taken ed k digest n row L mid L' pool block b) :
    L'.objects = L.objects ∧ L'.identities = L.identities := by
  obtain ⟨range, -, hmat⟩ := h.reserved
  rw [h.ledger]
  exact hmat.reserves.objects

theorem Taken.mem {digest : String} {row : Cidr → Row} {r : Row} (h : Taken ed k digest n row L mid L' pool block b)
    (hr : r ∈ L'.rows) : r ∈ L.rows ∨ r = reservationRow ed k r.cidr ∨ r = row b := by
  obtain ⟨range, -, hmat⟩ := h.reserved
  rw [h.ledger] at hr
  cases List.mem_append.mp hr with
  | inl hr => exact (hmat.reserves.mem hr).imp_right .inl
  | inr hr => exact .inr (.inr (List.mem_singleton.mp hr))

theorem Consistent.taken {digest : String} {row : Cidr → Row} (h : Consistent L) (hrow : ∀ b, (row b).poolKey = k)
    (htaken : Taken ed k digest n row L mid L' pool block b) : Consistent L' := by
  have hrows := RowsStored.taken ⟨h.keyed, h.pools⟩ hrow htaken
  obtain ⟨hobjects, hids⟩ := taken_objects htaken
  refine ⟨hrows.keyed, hrows.pools, ?_⟩
  rw [hobjects, hids]
  exact h.identities

end

end Ipam.Allocator
