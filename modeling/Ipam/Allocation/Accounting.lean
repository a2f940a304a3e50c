import Ipam.Lib.Counting
import Ipam.Allocation.Network
import Ipam.Allocation.FreeRegions
import Ipam.Allocation.Reservation

namespace Ipam.Allocation

open Counting FirstFit

def Accounted (p : IPNet) (cs : List IPNet) (x : ℕ) : Prop :=
  ∃ c ∈ filterWithin p cs, c.Mem x

instance (p : IPNet) (cs : List IPNet) : DecidablePred (Accounted p cs) :=
  fun _ => inferInstanceAs (Decidable (∃ c ∈ _, _))

def Vacant (p : IPNet) (cs : List IPNet) (x : ℕ) : Prop :=
  p.Mem x ∧ ¬ Accounted p cs x

instance (p : IPNet) (cs : List IPNet) : DecidablePred (Vacant p cs) :=
  fun _ => inferInstanceAs (Decidable (_ ∧ _))

theorem mem_filterWithin {p c : IPNet} {cs : List IPNet} :
    c ∈ filterWithin p cs ↔ c ∈ cs ∧ sameFamily p.ip c.ip = true ∧ p.contains c.ip = true := by
  simp only [filterWithin, List.mem_filter, Bool.and_eq_true]

theorem accounted_congr {p : IPNet} {cs ds : List IPNet} (h : ∀ c, c ∈ cs ↔ c ∈ ds) (x : ℕ) :
    Accounted p cs x ↔ Accounted p ds x := by
  simp only [Accounted, mem_filterWithin, h]

theorem accounted_append (p : IPNet) (cs ds : List IPNet) (x : ℕ) :
    Accounted p (cs ++ ds) x ↔ Accounted p cs x ∨ Accounted p ds x := by
  simp only [Accounted, filterWithin, List.filter_append, List.mem_append, or_and_right, exists_or]

theorem rangeOf_start_le_stop (c : IPNet) : (rangeOf c).start ≤ (rangeOf c).stop :=
  c.cidrFirstAddr_le_last

theorem vacant_ahead (p : IPNet) (cs : List IPNet) :
    Ahead (Vacant p cs) (cidrLastAddr p) (cidrFirstAddr p)
      (sortByStart ((filterWithin p cs).map rangeOf)) := by
  intro x hx
  simp only [mem_sortByStart, List.mem_map, forall_exists_index, and_imp, forall_apply_eq_imp_iff₂]
  constructor
  · rintro ⟨hmem, hfree⟩
    exact ⟨hmem.2, fun c hc hm => hfree ⟨c, hc, hm⟩⟩
  · rintro ⟨hlast, hfree⟩
    refine ⟨⟨hx, hlast⟩, ?_⟩
    rintro ⟨c, hc, hm⟩
    exact hfree c hc hm

theorem sorted_wellFormed (p : IPNet) (cs : List IPNet) :
    ∀ r ∈ sortByStart ((filterWithin p cs).map rangeOf), r.start ≤ r.stop := by
  intro r hr
  rw [mem_sortByStart] at hr
  obtain ⟨c, -, rfl⟩ := List.mem_map.mp hr
  exact rangeOf_start_le_stop c

theorem viewParent_vacant {p : IPNet} {cs : List IPNet} {r : IPRange} (hr : r ∈ viewParent p cs) {x : ℕ}
    (hx : r.Mem x) : Vacant p cs x :=
  sweep_free (sortByStart_sorted _) le_rfl (vacant_ahead p cs) r hr x hx

theorem viewParent_first {p : IPNet} {cs : List IPNet} {size : ℕ} (hpos : 0 < size) :
    Answer (Vacant p cs) size ((viewParent p cs).findSome? (startIn size)) := by
  refine sweep_answer hpos (sortByStart_sorted _) le_rfl (sorted_wellFormed p cs) (vacant_ahead p cs) ?_
  apply NoneBelow.of_not_free hpos
  intro x hx hf
  exact absurd hf.1.1 (by omega)

theorem sweep_sum {free : ℕ → Prop} [DecidablePred free] {lo hi cursor : ℕ} {rs : List IPRange}
    (hs : Sorted rs) (hlo : lo ≤ cursor) (hwf : ∀ r ∈ rs, r.start ≤ r.stop) (h : Ahead free hi cursor rs) :
    ((sweep lo hi cursor rs).map rangeSize).sum = countIn free cursor (hi + 1) := by
  induction rs generalizing cursor with
  | nil =>
    have hall : countIn free cursor (hi + 1) = hi + 1 - cursor := by
      apply countIn_all
      intro x hx hx'
      exact (h x hx).mpr ⟨by omega, by simp⟩
    rw [hall]
    simp only [sweep]
    split
    · simp [rangeSize]
    · simp only [List.map_nil, List.sum_nil]
      omega
  | cons e rs ih =>
    have hs' := (List.pairwise_cons.mp hs).2
    have hwf' : ∀ r ∈ rs, r.start ≤ r.stop := fun r hr => hwf r (List.mem_cons_of_mem _ hr)
    have hse := hwf e List.mem_cons_self
    simp only [sweep]
    split
    · rename_i he
      exact ih hs' hlo hwf' (h.skip hlo he)
    · rename_i he
      have hpass := ih hs' (hlo.trans (le_max_left _ _)) hwf' h.pass
      split
      · rename_i hgap
        have hsplit := countIn_split free (a := cursor) (b := e.start) (c := hi + 1) (by omega) (by omega)
        have hfree : countIn free cursor e.start = e.start - cursor := by
          apply countIn_all
          intro x hx hx'
          exact h.gap hs (by omega) hx hx'
        have htaken : countIn free e.start (hi + 1) = countIn free (max cursor (e.stop + 1)) (hi + 1) := by
          apply countIn_skip (by omega)
          intro x hx hx'
          exact h.taken (by omega) ⟨hx, by omega⟩
        rw [hsplit, hfree, htaken, ← hpass]
        simp only [List.map_cons, List.sum_cons, rangeSize]
        omega
      · rename_i hgap
        rw [hpass]
        symm
        apply countIn_skip (le_max_left _ _)
        intro x hx hx'
        exact h.taken hx ⟨by omega, by omega⟩

theorem sum_viewParent (p : IPNet) (cs : List IPNet) :
    ((viewParent p cs).map rangeSize).sum = countIn (Vacant p cs) (cidrFirstAddr p) (cidrLastAddr p + 1) :=
  sweep_sum (sortByStart_sorted _) le_rfl (sorted_wellFormed p cs) (vacant_ahead p cs)

def accounted (p : IPNet) (cs : List IPNet) : ℕ :=
  countIn (Accounted p cs) (cidrFirstAddr p) (cidrLastAddr p + 1)

theorem accounted_add_vacant (p : IPNet) (cs : List IPNet) :
    accounted p cs + countIn (Vacant p cs) (cidrFirstAddr p) (cidrLastAddr p + 1) = addressCount p := by
  have hfree : countIn (Vacant p cs) (cidrFirstAddr p) (cidrLastAddr p + 1) =
      countIn (fun x => ¬ Accounted p cs x) (cidrFirstAddr p) (cidrLastAddr p + 1) := by
    apply countIn_congr
    intro x hx hx'
    exact and_iff_right ⟨hx, by omega⟩
  rw [hfree, accounted, countIn_add_not, IPNet.addressCount_eq, IPNet.cidrLastAddr_eq]
  have := p.size_pos
  omega

theorem accounted_of_mem_iff {p : IPNet} {cs ds : List IPNet} (h : ∀ c, c ∈ cs ↔ c ∈ ds) :
    accounted p cs = accounted p ds :=
  countIn_congr fun x _ _ => accounted_congr h x

def accounts (parents cs : List IPNet) : PoolMeasurement :=
  ⟨(parents.map addressCount).sum, (parents.map (accounted · cs)).sum,
    (parents.map fun p => addressCount p - accounted p cs).sum⟩

theorem accounts_add (parents cs : List IPNet) :
    (accounts parents cs).consumed + (accounts parents cs).free = (accounts parents cs).total := by
  induction parents with
  | nil => rfl
  | cons p rest ih =>
    have := accounted_add_vacant p cs
    simp only [accounts, List.map_cons, List.sum_cons] at ih ⊢
    omega

theorem measureViews_viewPool (parents cs : List IPNet) :
    measureViews (viewPool parents cs) = accounts parents cs := by
  have hadd := accounts_add parents cs
  have htotal : ((viewPool parents cs).map fun v => addressCount v.parent).sum = (accounts parents cs).total := by
    simp only [viewPool, List.map_map, accounts]
    rfl
  have hfree : ((viewPool parents cs).map fun v => v.free).sum = (accounts parents cs).free := by
    simp only [viewPool, List.map_map, accounts]
    congr 1
    apply List.map_congr_left
    intro p _
    have := accounted_add_vacant p cs
    simp only [Function.comp_apply, sum_viewParent]
    omega
  have hconsumed : (accounts parents cs).total - (accounts parents cs).free = (accounts parents cs).consumed := by
    omega
  simp only [measureViews, htotal, hfree, hconsumed]

theorem measure_zero (parents cs : List IPNet) (u : ℤ) :
    measure parents cs ⟨u, 0, 0⟩ = .ok (accounts parents cs) := by
  simp only [measure, blockedSet, Reservation.isZero, BEq.rfl, Bool.and_self, if_true, Except.map,
    measureViews_viewPool]

end Ipam.Allocation
