import Ipam.Allocation.FindBlock

namespace Ipam.Allocation

open Counting

instance (p : Cidr) (cs : List Cidr) : DecidablePred (Free p cs) :=
  fun _ => inferInstanceAs (Decidable (_ ∧ _ ∧ _))

def Covered (p : Cidr) (cs : List Cidr) (x : ℕ) : Prop :=
  ∃ c ∈ cs, c.Mem p.family x

instance (p : Cidr) (cs : List Cidr) : DecidablePred (Covered p cs) :=
  fun _ => inferInstanceAs (Decidable (∃ c ∈ cs, _))

def consumption (p : Cidr) (cs : List Cidr) : ℕ :=
  countIn (Covered p cs) p.addr (p.last + 1)

theorem viewParent_sum {p : Cidr} {cs : List Cidr} (hset : ∀ c ∈ cs, Settled p c) :
    ((viewParent p.net (cs.map Cidr.net)).map rangeSize).sum = countIn (Free p cs) p.addr (p.last + 1) := by
  rw [sum_viewParent, Cidr.cidrFirstAddr_net, Cidr.cidrLastAddr_net]
  exact countIn_congr fun x _ _ => vacant_net hset x

theorem free_add_consumption (p : Cidr) (cs : List Cidr) :
    consumption p cs + countIn (Free p cs) p.addr (p.last + 1) = p.size := by
  have hfree : countIn (Free p cs) p.addr (p.last + 1) =
      countIn (fun x => ¬ Covered p cs x) p.addr (p.last + 1) := by
    apply countIn_congr
    intro x hx hx'
    simp only [Free, Covered, not_exists, not_and]
    exact ⟨fun h => h.2.2, fun h => ⟨hx, by omega, h⟩⟩
  rw [hfree]
  simp only [consumption]
  rw [countIn_add_not]
  have := p.size_pos
  simp only [Cidr.last]
  omega

theorem consumption_le (p : Cidr) (cs : List Cidr) : consumption p cs ≤ p.size := by
  have := free_add_consumption p cs
  omega

theorem measure_net {p : Cidr} {cs : List Cidr} (hset : ∀ c ∈ cs, Settled p c) {u : ℤ} :
    measure [p.net] (cs.map Cidr.net) ⟨u, 0, 0⟩ =
      .ok ⟨p.size, consumption p cs, p.size - consumption p cs⟩ := by
  have hsum := viewParent_sum hset
  have hadd := free_add_consumption p cs
  have htotal : addressCount p.net = p.size := rfl
  simp only [measure, blockedSet, Reservation.isZero, BEq.rfl, Bool.and_self, if_true, Except.map,
    measureViews, viewPool, List.map_cons, List.map_nil, List.sum_cons, List.sum_nil, hsum, htotal,
    Nat.add_zero, Except.ok.injEq, PoolMeasurement.mk.injEq, true_and]
  omega

def newly (p : Cidr) (cs : List Cidr) (b : Cidr) : ℕ :=
  countIn (fun x => b.Mem p.family x ∧ ¬ Covered p cs x) p.addr (p.last + 1)

theorem covered_append (p : Cidr) (cs ds : List Cidr) (x : ℕ) :
    Covered p (cs ++ ds) x ↔ Covered p cs x ∨ Covered p ds x := by
  simp only [Covered, List.mem_append]
  constructor
  · rintro ⟨c, hc | hc, hm⟩
    · exact Or.inl ⟨c, hc, hm⟩
    · exact Or.inr ⟨c, hc, hm⟩
  · rintro (⟨c, hc, hm⟩ | ⟨c, hc, hm⟩)
    · exact ⟨c, Or.inl hc, hm⟩
    · exact ⟨c, Or.inr hc, hm⟩

theorem consumption_append (p : Cidr) (cs : List Cidr) (b : Cidr) :
    consumption p (cs ++ [b]) = consumption p cs + newly p cs b := by
  apply countIn_or
  · intro x _ _
    rw [covered_append]
    simp only [Covered, List.mem_singleton, exists_eq_left]
    by_cases h : ∃ c ∈ cs, c.Mem p.family x
    · simp [h]
    · simp [h]
  · rintro x _ _ h ⟨-, hn⟩
    exact hn h

theorem consumption_congr {p : Cidr} {cs ds : List Cidr} (h : ∀ c, c ∈ cs ↔ c ∈ ds) :
    consumption p cs = consumption p ds := by
  apply countIn_congr
  intro x _ _
  simp only [Covered, h]

theorem newly_append_of_apart {p : Cidr} {cs : List Cidr} {b d : Cidr} (h : d.overlaps b = false) :
    newly p (cs ++ [d]) b = newly p cs b := by
  apply countIn_congr
  intro x _ _
  apply and_congr_right
  intro hb
  rw [covered_append]
  have hd : ¬ Covered p [d] x := by
    rintro ⟨c, hc, hm⟩
    rw [List.mem_singleton.mp hc] at hm
    have hover := (d.overlaps_iff_mem b).mpr ⟨p.family, x, hm, hb⟩
    rw [h] at hover
    cases hover
  simp [hd]

theorem consumption_append_of_apart {p : Cidr} {cs ds : List Cidr}
    (h : ds.Pairwise fun c d => c.overlaps d = false) :
    consumption p (cs ++ ds) = consumption p cs + (ds.map (newly p cs)).sum := by
  induction ds generalizing cs with
  | nil => simp
  | cons d ds ih =>
    obtain ⟨hd, hds⟩ := List.pairwise_cons.mp h
    have hsame : ds.map (newly p (cs ++ [d])) = ds.map (newly p cs) :=
      List.map_congr_left fun b hb => newly_append_of_apart (hd b hb)
    have hsplit : cs ++ d :: ds = (cs ++ [d]) ++ ds := by simp
    rw [hsplit, ih hds, consumption_append, hsame, List.map_cons, List.sum_cons, Nat.add_assoc]

theorem newly_overlapping (p : Cidr) (cs : List Cidr) (b : Cidr) :
    newly p (cs.filter fun c => c.overlaps b) b = newly p cs b := by
  apply countIn_congr
  intro x _ _
  apply and_congr_right
  intro hb
  apply not_congr
  simp only [Covered, List.mem_filter]
  constructor
  · rintro ⟨c, ⟨hc, -⟩, hm⟩
    exact ⟨c, hc, hm⟩
  · rintro ⟨c, hc, hm⟩
    exact ⟨c, ⟨hc, (c.overlaps_iff_mem b).mpr ⟨p.family, x, hm, hb⟩⟩, hm⟩

theorem filterWithin_append (parent : IPNet) (cs ds : List IPNet) :
    filterWithin parent (cs ++ ds) = filterWithin parent cs ++ filterWithin parent ds :=
  List.filter_append _ _

theorem filterWithin_makeCIDR {p : Cidr} {n start : ℕ} (h : BlockAt p n start) {b : Cidr}
    (hb : (makeCIDR start n p.family h.le_bits).string = some b) :
    filterWithin p.net [makeCIDR start n p.family h.le_bits] = filterWithin p.net [b.net] := by
  by_cases hm : Mapped p.family start
  · obtain ⟨c, hc, hc4, hp6⟩ := string_makeCIDR_mapped h hm
    obtain rfl : c = b := Option.some.inj (hc.symm.trans hb)
    have hp4 : p.net.ip.to4.isSome = false := by
      rw [show p.net.ip = p.ip from rfl, Cidr.isSome_to4_ip, hp6]
      rfl
    have hblock : (makeCIDR start n p.family h.le_bits).ip.to4.isSome = true := by
      rw [makeCIDR_eq h.lt]
      simp only [IP.to4, hp6]
      rw [if_pos ((mapped_iff_div start).mpr hm.2)]
      rfl
    have hcb : c.net.ip.to4.isSome = true := by
      rw [show c.net.ip = c.ip from rfl, Cidr.isSome_to4_ip, hc4]
      rfl
    simp only [filterWithin, sameFamily, hp4, hblock, hcb, List.filter_cons, List.filter_nil]
    rfl
  · rw [string_makeCIDR h hm] at hb
    obtain rfl := Option.some.inj hb
    rw [makeCIDR_eq h.lt]
    rfl

theorem measure_append_congr {p : Cidr} {cs : List IPNet} {blk : IPNet} {b : Cidr}
    (h : filterWithin p.net [blk] = filterWithin p.net [b.net]) (r : Reservation) (hr : r.isZero = true) :
    measure [p.net] (cs ++ [blk]) r = measure [p.net] (cs ++ [b.net]) r := by
  simp only [measure, blockedSet, hr, if_true, Except.map, viewPool, List.map_cons, List.map_nil, viewParent,
    filterWithin_append, h]

theorem consumptionDelta_net {p : Cidr} {cs : List Cidr} (hset : ∀ c ∈ cs, Settled p c) {blk : IPNet}
    {b : Cidr} (hb : Settled p b) (h : filterWithin p.net [blk] = filterWithin p.net [b.net]) :
    consumptionDelta [p.net] (cs.map Cidr.net) blk = .ok (newly p cs b) := by
  have hset' : ∀ c ∈ cs ++ [b], Settled p c := by
    intro c hc
    rcases List.mem_append.mp hc with hc | hc
    · exact hset c hc
    · rw [List.mem_singleton.mp hc]
      exact hb
  have hafter := measure_net hset' (u := 0)
  rw [List.map_append] at hafter
  simp only [consumptionDelta, measure_net hset, measure_append_congr h ⟨0, 0, 0⟩ rfl]
  rw [show [b.net] = [b].map Cidr.net from rfl, hafter]
  simp only [bind, Except.bind, pure, Except.pure, consumption_append, Nat.add_sub_cancel_left]

end Ipam.Allocation
