import Ipam.Allocation.OnePass
import Mathlib.Data.Rat.Defs

namespace Ipam.Allocation

open Counting FirstFit

structure FreeRegion (p : IPNet) (existing : List IPNet) (r : IPRange) : Prop where
  ordered : r.start ≤ r.stop
  isFree : ∀ x, r.Mem x → p.Holds p.bits x ∧ ¬ Held p.bits existing x
  maximal : ∀ r' : IPRange, (∀ x, r'.Mem x → p.Holds p.bits x ∧ ¬ Held p.bits existing x) →
    (∀ x, r.Mem x → r'.Mem x) → ∀ x, r'.Mem x → r.Mem x

def Offers (p : IPNet) (existing : List IPNet) (n : ℤ) (r : IPRange) (b : IPNet) : Prop :=
  FreeRegion p existing r ∧ Suits p existing n b ∧ ∀ x, b.Holds b.bits x → r.Mem x

def consumedIn (p : IPNet) (existing : List IPNet) : ℕ :=
  countIn (Held p.bits existing) p.base (p.base + p.size)

def freeIn (p : IPNet) (existing : List IPNet) : ℕ :=
  countIn (fun x => ¬ Held p.bits existing x) p.base (p.base + p.size)

def allocatedFraction (p : IPNet) (existing : List IPNet) : ℚ :=
  consumedIn p existing / p.size

def Emptiest (parents existing : List IPNet) (n : ℤ) (p : IPNet) : Prop :=
  ∃ pre post, parents = pre ++ p :: post ∧ HasRoom existing n p ∧
    (∀ q ∈ pre, HasRoom existing n q → freeIn q existing < freeIn p existing) ∧
    ∀ q ∈ post, HasRoom existing n q → freeIn q existing ≤ freeIn p existing

structure Laid (parents existing : List IPNet) : Prop where
  unmapped : ∀ p ∈ parents, ¬ p.MeetsMapped
  apart : parents.Pairwise IPNet.Apart
  inside : ∀ c ∈ existing, ∃ p ∈ parents, c.Inside p

theorem pickBest_first {β : Type} [LinearOrder β] (key : Candidate → β) {better : Candidate → Candidate → Bool}
    (hbetter : ∀ x best, better x best = true ↔ key best < key x) {cs : List Candidate} {c : Candidate}
    (h : pickBest better cs = some c) :
    ∃ pre post, cs = pre ++ c :: post ∧ (∀ x ∈ pre, key x < key c) ∧ ∀ x ∈ post, key x ≤ key c := by
  cases cs with
  | nil => cases h
  | cons first rest =>
    obtain rfl := Option.some.inj h
    -- from the last candidate on: it is taken over only by a better one
    induction rest using List.reverseRecOn with
    | nil => exact ⟨[], [], rfl, by simp, by simp⟩
    | append_singleton rest x ih =>
      obtain ⟨pre, post, heq, hpre, hpost⟩ := ih rfl
      simp only [List.foldl_append, List.foldl_cons, List.foldl_nil]
      split
      · rename_i hx
        rw [hbetter] at hx
        refine ⟨first :: rest, [], by simp, ?_, by simp⟩
        intro y hy
        rw [heq] at hy
        rcases List.mem_append.mp hy with hy | hy
        · exact (hpre y hy).trans hx
        · rcases List.mem_cons.mp hy with rfl | hy
          · exact hx
          · exact (hpost y hy).trans_lt hx
      · rename_i hx
        rw [hbetter, not_lt] at hx
        refine ⟨pre, post ++ [x], ?_, hpre, ?_⟩
        · rw [← List.cons_append, heq, List.append_assoc, List.cons_append]
        · intro y hy
          rcases List.mem_append.mp hy with hy | hy
          · exact hpost y hy
          · rw [List.mem_singleton.mp hy]
            exact hx

section

variable {p : IPNet} {existing : List IPNet}

theorem viewParent_run {a b : ℕ} (hab : a ≤ b) (h : ∀ x, a ≤ x → x ≤ b → Vacant p existing x) :
    ∃ r ∈ viewParent p existing, r.start ≤ a ∧ b ≤ r.stop :=
  sweep_run (le_refl (cidrFirstAddr p)) (sorted_wellFormed p existing) (vacant_ahead p existing)
    (h a le_rfl hab).1.1 hab h

theorem viewParent_eq_of_mem {r s : IPRange} (hr : r ∈ viewParent p existing) (hs : s ∈ viewParent p existing) {x : ℕ}
    (hx : r.Mem x) (hx' : s.Mem x) : r = s := by
  by_contra hne
  have hsymm : Std.Symm fun r s : IPRange => r.stop < s.start ∨ s.stop < r.start := ⟨fun _ _ => Or.symm⟩
  have hpair : (viewParent p existing).Pairwise fun r s => r.stop < s.start ∨ s.stop < r.start :=
    (sweep_pairwise (sorted_wellFormed p existing)).imp Or.inl
  have hapart := hpair.forall hr hs hne
  have := hx.1
  have := hx.2
  have := hx'.1
  have := hx'.2
  omega

end

namespace Laid

variable {parents existing : List IPNet} {p : IPNet} {n : ℤ}

theorem taken_unmapped (h : Laid parents existing) : ∀ c ∈ existing, ¬ c.MeetsMapped := by
  intro c hc
  obtain ⟨p, hp, hinside⟩ := h.inside c hc
  exact not_meetsMapped_of_inside hinside (h.unmapped p hp)

theorem eq_of_meet (h : Laid parents existing) {q : IPNet} (hp : p ∈ parents) (hq : q ∈ parents) {f : Family} {x : ℕ}
    (hx : p.Holds f x) (hx' : q.Holds f x) : p = q := by
  by_contra hne
  exact h.apart.forall hp hq hne f x hx hx'

theorem counts (h : Laid parents existing) (hp : p ∈ parents) : p.Counts existing := by
  intro c hc
  obtain ⟨q, hq, hinside⟩ := h.inside c hc
  by_cases heq : q = p
  · exact Or.inl (heq ▸ hinside _ _ c.holds_self)
  · exact Or.inr ((h.apart.forall hq hp heq).of_inside hinside)

theorem vacant_iff (h : Laid parents existing) (hp : p ∈ parents) (x : ℕ) :
    Vacant p existing x ↔ p.Holds p.bits x ∧ ¬ Held p.bits existing x :=
  Allocation.vacant_iff (h.unmapped p hp) h.taken_unmapped (h.counts hp)

theorem sum_regions (h : Laid parents existing) (hp : p ∈ parents) :
    ((viewParent p existing).map rangeSize).sum = freeIn p existing := by
  have hlast : cidrLastAddr p + 1 = p.base + p.size := by
    have := p.size_pos
    rw [IPNet.cidrLastAddr_eq, IPNet.cidrFirstAddr_of_unmapped (h.unmapped p hp)]
    omega
  rw [sum_viewParent, hlast, IPNet.cidrFirstAddr_of_unmapped (h.unmapped p hp)]
  apply countIn_congr
  intro x hx hx'
  rw [h.vacant_iff hp]
  exact and_iff_right ⟨rfl, hx, hx'⟩

theorem mem_viewParent (h : Laid parents existing) (hp : p ∈ parents) (r : IPRange) :
    r ∈ viewParent p existing ↔ FreeRegion p existing r := by
  have hrun {a b : ℕ} (hab : a ≤ b) (hfree : ∀ x, a ≤ x → x ≤ b → p.Holds p.bits x ∧ ¬ Held p.bits existing x) :
      ∃ r ∈ viewParent p existing, r.start ≤ a ∧ b ≤ r.stop :=
    viewParent_run hab fun x hx hx' => (h.vacant_iff hp x).mpr (hfree x hx hx')
  have hfree (r : IPRange) (hr : r ∈ viewParent p existing) (x : ℕ) (hx : r.Mem x) :
      p.Holds p.bits x ∧ ¬ Held p.bits existing x := (h.vacant_iff hp x).mp (viewParent_vacant hr hx)
  constructor
  · intro hr
    have hordered := (sweep_bounds r hr).2.1
    refine ⟨hordered, hfree r hr, ?_⟩
    intro r' hr' hsub x hx
    obtain ⟨s, hs, hlo, hhi⟩ := hrun (hx.1.trans hx.2) fun y hy hy' => hr' y ⟨hy, hy'⟩
    have hstart := hsub r.start ⟨le_rfl, hordered⟩
    -- both regions have the start of the first, so they are one
    obtain rfl := viewParent_eq_of_mem hr hs ⟨le_rfl, hordered⟩ ⟨hlo.trans hstart.1, hstart.2.trans hhi⟩
    exact ⟨hlo.trans hx.1, hx.2.trans hhi⟩
  · intro hr
    obtain ⟨s, hs, hlo, hhi⟩ := hrun hr.ordered fun x hx hx' => hr.isFree x ⟨hx, hx'⟩
    have hsub := hr.maximal s (hfree s hs) fun x hx => ⟨hlo.trans hx.1, hx.2.trans hhi⟩
    have hordered := (sweep_bounds s hs).2.1
    have hstart := (hsub s.start ⟨le_rfl, hordered⟩).1
    have hstop := (hsub s.stop ⟨hordered, le_rfl⟩).2
    obtain rfl : s = r := by
      cases s
      cases r
      simp only [IPRange.mk.injEq] at *
      omega
    exact hs

theorem exists_fit (h : Laid parents existing) (hp : p ∈ parents) {r : IPRange} {b : IPNet}
    (hoffers : Offers p existing n r b) : ∃ f ∈ fitsOf p (viewParent p existing) n, f.region = r := by
  obtain ⟨hregion, hsuits, hin⟩ := hoffers
  have hvalid := hsuits.valid
  have hbits : b.bits = p.bits := ((IPNet.inside_iff b p).mp hsuits.inside).1
  have hones : b.ones = n.toNat := by have := hsuits.length; omega
  have hsize : b.size = blockSize n.toNat p.bits.bits := by
    simp only [IPNet.size, hones, hbits]
  have hpos := b.size_pos
  have hlo := (hin b.base b.holds_base).1
  have hhi := (hin (b.base + b.size - 1) ⟨rfl, by omega, by omega⟩).2
  have hceil : Dyadic.ceil r.start (blockSize n.toNat p.bits.bits) ≤ b.base :=
    Dyadic.ceil_le hlo (hsize ▸ b.size_dvd_base)
  obtain ⟨i, hi⟩ := List.mem_iff_getElem?.mp ((h.mem_viewParent hp r).mpr hregion)
  have hfit : alignUp r.start n.toNat p.bits.bits + blockSize n.toNat p.bits.bits - 1 ≤ r.stop := by
    simp only [alignUp]
    omega
  simp only [fitsOf, dif_neg hvalid]
  refine ⟨⟨makeCIDR (alignUp r.start n.toNat p.bits.bits) n.toNat p.bits (by omega), r, i⟩, ?_, rfl⟩
  refine List.mem_filterMap.mpr ⟨(r, i), List.mem_zipIdx_iff_getElem?.mpr hi, ?_⟩
  simp only [fitIn, if_pos hfit, Option.map_some]

theorem offers_of_fit (h : Laid parents existing) (hp : p ∈ parents) {f : Fit}
    (hf : f ∈ fitsOf p (viewParent p existing) n) : Offers p existing n f.region f.cidr := by
  have hsuits := fitsOf_suits (h.unmapped p hp) h.taken_unmapped (h.counts hp) hf
  obtain ⟨m, hm, rfl, -, hr, hfit⟩ := mem_fitsOf hf
  have hregion := List.mem_of_getElem? hr
  refine ⟨(h.mem_viewParent hp _).mp hregion, hsuits, ?_⟩
  intro x hx
  obtain ⟨start, hcidr, hfits⟩ : ∃ start, f.cidr = makeCIDR start m p.bits hm ∧
      Fits f.region.Mem (blockSize m p.bits.bits) start := fits_of_fitIn (fun x hx => hx) hfit
  have hmem := hfits.isFree start le_rfl (Nat.lt_add_of_pos_right (blockSize_pos m p.bits.bits))
  have hholds := ((h.vacant_iff hp start).mp (viewParent_vacant hregion hmem)).1
  obtain ⟨hbase, -, -, -, hsize⟩ := @makeCIDR_base start m p.bits hm (hholds.2.2.trans_le p.size_lt) hfits.dvd
  rw [hcidr] at hx
  obtain ⟨-, hlo, hhi⟩ := hx
  exact hfits.isFree x (hbase ▸ hlo) (by rw [hbase, hsize] at hhi; exact hhi)

theorem hasRoom_iff (h : Laid parents existing) (hp : p ∈ parents) :
    HasRoom existing n p ↔ fitsOf p (viewParent p existing) n ≠ [] := by
  constructor
  · rintro ⟨b, hb⟩ hnil
    exact fitsOf_eq_nil (h.unmapped p hp) h.taken_unmapped (h.counts hp) hnil b hb
  · intro hne
    obtain ⟨f, hf⟩ := List.exists_mem_of_ne_nil _ hne
    exact ⟨f.cidr, fitsOf_suits (h.unmapped p hp) h.taken_unmapped (h.counts hp) hf⟩

end Laid

def candidates (parents existing : List IPNet) (n : ℤ) : List Candidate :=
  (viewPool parents existing).zipIdx.flatMap (candidatesOf n)

section

variable {parents existing : List IPNet} {n : ℤ}

theorem mem_candidates {c : Candidate} :
    c ∈ candidates parents existing n ↔ ∃ p, parents[c.parentIdx]? = some p ∧
      ∃ f ∈ fitsOf p (viewParent p existing) n, c.cidr = f.cidr ∧ c.regionSize = rangeSize f.region ∧
        c.regionIdx = f.regionIdx ∧ c.parentFree = ((viewParent p existing).map rangeSize).sum := by
  simp only [candidates, List.mem_flatMap, candidatesOf, List.mem_map, Prod.exists, List.mem_zipIdx_iff_getElem?,
    viewPool, List.getElem?_map, Option.map_eq_some_iff]
  constructor
  · rintro ⟨v, i, ⟨p, hp, rfl⟩, f, hf, rfl⟩
    exact ⟨p, hp, f, hf, rfl, rfl, rfl, rfl⟩
  · rintro ⟨p, hp, f, hf, hcidr, hsize, hidx, hfree⟩
    refine ⟨_, c.parentIdx, ⟨p, hp, rfl⟩, f, hf, ?_⟩
    cases c
    simp only at hcidr hsize hidx hfree
    simp only [hcidr, hsize, hidx, hfree]

theorem candidates_sorted : (candidates parents existing n).Pairwise fun c d => c.parentIdx ≤ d.parentIdx := by
  have hidx {v : ParentView × ℕ} {c : Candidate} (hc : c ∈ candidatesOf n v) : c.parentIdx = v.2 := by
    obtain ⟨f, -, rfl⟩ := List.mem_map.mp hc
    rfl
  apply List.pairwise_flatMap.mpr
  constructor
  · intro v _
    apply List.pairwise_iff_forall_sublist.mpr
    intro c d hsub
    rw [hidx (hsub.subset (by simp)), hidx (hsub.subset (by simp))]
  · have hzip : ((viewPool parents existing).zipIdx.map Prod.snd).Pairwise (· < ·) := by
      rw [List.zipIdx_map_snd]
      exact List.pairwise_lt_range'
    refine (List.pairwise_map.mp hzip).imp ?_
    intro v w hlt c hc d hd
    rw [hidx hc, hidx hd]
    exact hlt.le

end

namespace Laid

variable {parents existing : List IPNet} {n : ℤ}

theorem candidates_ne_nil (h : Laid parents existing) (hroom : ∃ p ∈ parents, HasRoom existing n p) :
    candidates parents existing n ≠ [] := by
  obtain ⟨p, hp, hroom⟩ := hroom
  obtain ⟨f, hf⟩ := List.exists_mem_of_ne_nil _ ((h.hasRoom_iff hp).mp hroom)
  obtain ⟨i, hi⟩ := List.mem_iff_getElem?.mp hp
  have hmem : (⟨f.cidr, rangeSize f.region, i, f.regionIdx, ((viewParent p existing).map rangeSize).sum⟩ : Candidate) ∈
      candidates parents existing n := mem_candidates.mpr ⟨p, hi, f, hf, rfl, rfl, rfl, rfl⟩
  exact List.ne_nil_of_mem hmem

theorem exists_selected (h : Laid parents existing) (hroom : ∃ p ∈ parents, HasRoom existing n p) (s : Strategy) :
    ∃ c, selectBlock (viewPool parents existing) n s = some c ∧
      findFirstAvailableBlock parents existing n s = .ok c.cidr := by
  have hne : parents ≠ [] := by
    obtain ⟨p, hp, -⟩ := hroom
    exact List.ne_nil_of_mem hp
  rw [findFirstAvailableBlock_eq_selectBlock hne]
  cases hselect : selectBlock (viewPool parents existing) n s with
  | none => exact absurd (selectBlock_none hselect) (h.candidates_ne_nil hroom)
  | some c => exact ⟨c, rfl, rfl⟩

theorem bestFit_smallest (h : Laid parents existing) (hroom : ∃ p ∈ parents, HasRoom existing n p) :
    ∃ b, findFirstAvailableBlock parents existing n .bestFit = .ok b ∧ ∃ p ∈ parents, ∃ r, Offers p existing n r b ∧
      ∀ q ∈ parents, ∀ r' b', Offers q existing n r' b' → rangeSize r ≤ rangeSize r' := by
  obtain ⟨c, hselect, hfound⟩ := h.exists_selected hroom .bestFit
  obtain ⟨pre, post, heq, hpre, hpost⟩ := pickBest_first
    (fun c => OrderDual.toDual c.regionSize) (by simp) hselect
  have hmin : ∀ x ∈ candidates parents existing n, c.regionSize ≤ x.regionSize := by
    intro x hx
    rw [candidates, heq] at hx
    rcases List.mem_append.mp hx with hx | hx
    · exact (OrderDual.toDual_lt_toDual.mp (hpre x hx)).le
    · rcases List.mem_cons.mp hx with rfl | hx
      · exact le_rfl
      · exact OrderDual.toDual_le_toDual.mp (hpost x hx)
  have hc : c ∈ candidates parents existing n := by
    rw [candidates, heq]
    simp
  obtain ⟨p, hp, f, hf, hcidr, hsize, -⟩ := mem_candidates.mp hc
  have hp' := List.mem_of_getElem? hp
  refine ⟨c.cidr, hfound, p, hp', f.region, hcidr ▸ h.offers_of_fit hp' hf, ?_⟩
  intro q hq r' b' hoffers
  obtain ⟨g, hg, rfl⟩ := h.exists_fit hq hoffers
  obtain ⟨j, hj⟩ := List.mem_iff_getElem?.mp hq
  have hx := hmin ⟨g.cidr, rangeSize g.region, j, g.regionIdx, ((viewParent q existing).map rangeSize).sum⟩
    (mem_candidates.mpr ⟨q, hj, g, hg, rfl, rfl, rfl, rfl⟩)
  rw [← hsize]
  exact hx

theorem leastUtilized_emptiest (h : Laid parents existing) (hroom : ∃ p ∈ parents, HasRoom existing n p) :
    ∃ b p, findFirstAvailableBlock parents existing n .leastUtilized = .ok b ∧ Suits p existing n b ∧
      Emptiest parents existing n p := by
  obtain ⟨c, hselect, hfound⟩ := h.exists_selected hroom .leastUtilized
  obtain ⟨pre, post, heq, hpre, hpost⟩ := pickBest_first Candidate.parentFree (by simp) hselect
  change candidates parents existing n = _ at heq
  have hc : c ∈ candidates parents existing n := by
    rw [heq]
    simp
  obtain ⟨p, hp, f, hf, hcidr, -, -, hfree⟩ := mem_candidates.mp hc
  have hp' := List.mem_of_getElem? hp
  have hsuits := (h.offers_of_fit hp' hf).2.1
  rw [h.sum_regions hp'] at hfree
  -- a parent with room has a candidate, and its index says on which side of the chosen one it stands
  have hcandidate {q : IPNet} {j : ℕ} (hj : parents[j]? = some q) (hq : HasRoom existing n q) :
      ∃ x ∈ candidates parents existing n, x.parentIdx = j ∧ x.parentFree = freeIn q existing := by
    have hq' := List.mem_of_getElem? hj
    obtain ⟨g, hg⟩ := List.exists_mem_of_ne_nil _ ((h.hasRoom_iff hq').mp hq)
    exact ⟨⟨g.cidr, rangeSize g.region, j, g.regionIdx, ((viewParent q existing).map rangeSize).sum⟩,
      mem_candidates.mpr ⟨q, hj, g, hg, rfl, rfl, rfl, rfl⟩, rfl, h.sum_regions hq'⟩
  have hsorted := heq ▸ @candidates_sorted parents existing n
  have hafter := (List.pairwise_cons.mp (List.pairwise_append.mp hsorted).2.1).1
  obtain ⟨hlt, hget⟩ := List.getElem?_eq_some_iff.mp hp
  refine ⟨c.cidr, p, hfound, hcidr ▸ hsuits, parents.take c.parentIdx, parents.drop (c.parentIdx + 1), ?_,
    ⟨_, hsuits⟩, ?_, ?_⟩
  · rw [← hget, List.getElem_cons_drop, List.take_append_drop]
  · intro q hq hqroom
    obtain ⟨j, hj⟩ := List.mem_iff_getElem?.mp hq
    rw [List.getElem?_take] at hj
    split at hj
    · rename_i hjlt
      obtain ⟨x, hx, hidx, hxfree⟩ := hcandidate hj hqroom
      rw [← hfree, ← hxfree]
      rw [heq] at hx
      rcases List.mem_append.mp hx with hx | hx
      · exact hpre x hx
      · rcases List.mem_cons.mp hx with rfl | hx
        · omega
        · have := hafter x hx
          omega
    · cases hj
  · intro q hq hqroom
    obtain ⟨j, hj⟩ := List.mem_iff_getElem?.mp (List.mem_of_mem_drop hq)
    obtain ⟨x, hx, -, hxfree⟩ := hcandidate hj hqroom
    rw [← hfree, ← hxfree]
    rw [heq] at hx
    rcases List.mem_append.mp hx with hx | hx
    · exact (hpre x hx).le
    · rcases List.mem_cons.mp hx with rfl | hx
      · exact le_rfl
      · exact hpost x hx

end Laid

theorem Emptiest.unique {parents existing : List IPNet} {n : ℤ} {p q : IPNet} (hp : Emptiest parents existing n p)
    (hq : Emptiest parents existing n q) : p = q := by
  obtain ⟨pre, post, rfl, hroom, hpre, hpost⟩ := hp
  obtain ⟨pre', post', heq, hroom', hpre', hpost'⟩ := hq
  obtain ⟨hlo, hhi⟩ | ⟨hlo, hhi⟩ | hsame := split_cases heq
  · exact absurd (hpost' p hhi hroom) (hpre q hlo hroom').not_ge
  · exact absurd (hpost q hhi hroom') (hpre' p hlo hroom).not_ge
  · exact hsame

theorem Emptiest.freeIn_le {parents existing : List IPNet} {n : ℤ} {p q : IPNet} (hp : Emptiest parents existing n p)
    (hq : q ∈ parents) (hroom : HasRoom existing n q) : freeIn q existing ≤ freeIn p existing := by
  obtain ⟨pre, post, rfl, -, hpre, hpost⟩ := hp
  rcases List.mem_append.mp hq with hq | hq
  · exact (hpre q hq hroom).le
  · rcases List.mem_cons.mp hq with rfl | hq
    · exact le_rfl
    · exact hpost q hq hroom

theorem allocatedFraction_le {p q : IPNet} {existing : List IPNet} (hsize : p.size = q.size)
    (hfree : freeIn q existing ≤ freeIn p existing) : allocatedFraction p existing ≤ allocatedFraction q existing := by
  have hcount (n : IPNet) : consumedIn n existing + freeIn n existing = n.size := by
    rw [consumedIn, freeIn, countIn_add_not, Nat.add_sub_cancel_left]
  have hp := hcount p
  have hq := hcount q
  have hle : consumedIn p existing ≤ consumedIn q existing := by omega
  simp only [allocatedFraction, hsize]
  gcongr

def BestFitKeeps (parents existing : List IPNet) (n : ℤ) : Prop :=
  ∃ b, findFirstAvailableBlock parents existing n .bestFit = .ok b ∧ ∃ p ∈ parents, ∃ r, Offers p existing n r b ∧
    ∀ q ∈ parents, ∀ r' b', Offers q existing n r' b' → rangeSize r ≤ rangeSize r'

def LeastUtilizedKeeps (parents existing : List IPNet) (n : ℤ) : Prop :=
  ∃ b, findFirstAvailableBlock parents existing n .leastUtilized = .ok b ∧ ∃ p ∈ parents, Suits p existing n b ∧
    ∀ q ∈ parents, HasRoom existing n q → allocatedFraction p existing ≤ allocatedFraction q existing

/-- The parent with the most free addresses is a least allocated one. -/
def EmptiestLeast (parents existing : List IPNet) (n : ℤ) : Prop :=
  ∀ p, Emptiest parents existing n p →
    ∀ q ∈ parents, HasRoom existing n q → allocatedFraction p existing ≤ allocatedFraction q existing

theorem Laid.leastUtilized_iff {parents existing : List IPNet} {n : ℤ} (h : Laid parents existing)
    (hroom : ∃ p ∈ parents, HasRoom existing n p) :
    LeastUtilizedKeeps parents existing n ↔ EmptiestLeast parents existing n := by
  obtain ⟨b, p, hfound, hsuits, hemptiest⟩ := h.leastUtilized_emptiest hroom
  have hp : p ∈ parents := by
    obtain ⟨pre, post, rfl, -⟩ := hemptiest
    simp
  constructor
  · rintro ⟨b', hfound', p', hp', hsuits', hleast⟩ q hq
    obtain rfl := Except.ok.inj (hfound.symm.trans hfound')
    obtain rfl : p' = p := h.eq_of_meet hp' hp (hsuits'.inside _ _ b.holds_base) (hsuits.inside _ _ b.holds_base)
    rw [hq.unique hemptiest]
    exact hleast
  · intro hcond
    exact ⟨b, hfound, p, hp, hsuits, hcond p hemptiest⟩

section

variable {p q : IPNet} {existing : List IPNet} {x : ℕ}

theorem not_hasRoom (h : q ∈ existing ∨ q.bits = .v4) : ¬ HasRoom existing 128 q := by
  rintro ⟨b, hb⟩
  rcases h with h | h
  · exact hb.apart q h _ _ b.holds_base (hb.inside _ _ b.holds_base)
  · apply hb.valid
    rw [h]
    exact Or.inr (by decide)

end

namespace Misplaces

variable {parents existing : List IPNet} {p : IPNet} {x : ℕ}

theorem start_eq (h : Misplaces parents existing p x) {r : IPRange} (hr : r ∈ viewParent p existing) : r.start = x := by
  have hordered := (sweep_bounds r hr).2.1
  obtain ⟨hmem, hle⟩ := (h.vacant _).mp (viewParent_vacant hr ⟨le_rfl, hordered⟩)
  obtain ⟨s, hs, hlo, hhi⟩ := @viewParent_run p existing x r.start hle fun y hy hy' =>
    (h.vacant y).mpr ⟨⟨h.reached.1.trans hy, hy'.trans hmem.2⟩, hy⟩
  obtain rfl := viewParent_eq_of_mem hr hs ⟨le_rfl, hordered⟩ ⟨hlo.trans hle, hhi⟩
  exact le_antisymm hlo hle

theorem fit_eq (h : Misplaces parents existing p x) {f : Fit} (hf : f ∈ fitsOf p (viewParent p existing) 128) :
    f.cidr = single x := by
  obtain ⟨n, hn, hlen, -, hregion, hfit⟩ := mem_fitsOf hf
  obtain rfl : n = 128 := by omega
  have hone : blockSize 128 p.bits.bits = 1 := by
    rw [h.wide]
    rfl
  rw [fitIn_eq_map, hone, startIn, h.start_eq (List.mem_of_getElem? hregion)] at hfit
  have hceil : Dyadic.ceil x 1 = x := le_antisymm (Dyadic.ceil_le le_rfl (one_dvd x)) (Dyadic.le_ceil x 1)
  rw [hceil] at hfit
  split at hfit
  · rw [← Option.some.inj hfit]
    obtain ⟨⟨family, addr, addr_lt⟩, ones, ones_le⟩ := p
    obtain rfl : family = .v6 := h.wide
    rfl
  · cases hfit

theorem found (h : Misplaces parents existing p x) (s : Strategy) :
    findFirstAvailableBlock parents existing 128 s = .ok (single x) := by
  have hfirst := firstFitIn_single h.wide ((h.vacant x).mpr ⟨h.reached, le_rfl⟩) fun y hy => ((h.vacant y).mp hy).2
  obtain ⟨f, hf, -⟩ := Option.map_eq_some_iff.mp hfirst
  rw [findFirstAvailableBlock_eq_selectBlock (List.ne_nil_of_mem h.mem)]
  cases hselect : selectBlock (viewPool parents existing) 128 s with
  | none =>
    obtain ⟨i, hi⟩ := List.mem_iff_getElem?.mp h.mem
    have hmem : (⟨f.cidr, rangeSize f.region, i, f.regionIdx, ((viewParent p existing).map rangeSize).sum⟩ : Candidate) ∈
        candidates parents existing 128 :=
      mem_candidates.mpr ⟨p, hi, f, List.mem_of_mem_head? hf, rfl, rfl, rfl, rfl⟩
    exact absurd (selectBlock_none hselect) (List.ne_nil_of_mem hmem)
  | some c =>
    obtain ⟨v, hv, g, hg, hcidr⟩ := selectBlock_mem hselect
    obtain ⟨q, hq, rfl⟩ := List.mem_map.mp hv
    by_cases hqp : q = p
    · subst hqp
      rw [Option.map_some, hcidr, h.fit_eq hg]
    · have hnone : firstFitIn q (viewParent q existing) 128 = none := by
        apply firstFitIn_none
        refine (h.others q hq hqp).imp_right fun ⟨hv4, _⟩ => ?_
        rw [hv4]
        decide
      rw [firstFitIn, List.head?_eq_none_iff] at hnone
      rw [show fitsOf q (viewParent q existing) 128 = [] from hnone] at hg
      cases hg

theorem not_bestFit (h : Misplaces parents existing p x) : ¬ BestFitKeeps parents existing 128 := by
  rintro ⟨b, hb, q, hq, r, hoffers, -⟩
  obtain rfl := Except.ok.inj ((h.found .bestFit).symm.trans hb)
  exact h.held q hq hoffers.2.1

theorem not_leastUtilized (h : Misplaces parents existing p x) : ¬ LeastUtilizedKeeps parents existing 128 := by
  rintro ⟨b, hb, q, hq, hsuits, -⟩
  obtain rfl := Except.ok.inj ((h.found .leastUtilized).symm.trans hb)
  exact h.held q hq hsuits

theorem emptiestLeast (h : Misplaces parents existing p x) : EmptiestLeast parents existing 128 := by
  have honly : ∀ q ∈ parents, HasRoom existing 128 q → q = p := by
    intro q hq hroom
    by_contra hqp
    exact not_hasRoom ((h.others q hq hqp).imp_right And.left) hroom
  rintro q ⟨pre, post, heq, hroom, -⟩ q' hq' hroom'
  rw [honly q (by rw [heq]; simp) hroom, honly q' hq' hroom']

end Misplaces

/-- `BestFit` takes a smallest region, and `LeastUtilized` takes from a least allocated parent exactly when the parent
with the most free addresses is one, whatever is held and wanted, exactly when no parent meets the mapped range. -/
theorem strategies_choose (parents : List IPNet) (hdisj : parents.Pairwise IPNet.Apart) :
    ((∀ existing n, (∀ c ∈ existing, ∃ p ∈ parents, c.Inside p) → (∃ p ∈ parents, HasRoom existing n p) →
        BestFitKeeps parents existing n) ↔ ∀ p ∈ parents, ¬ p.MeetsMapped) ∧
    ((∀ existing n, (∀ c ∈ existing, ∃ p ∈ parents, c.Inside p) → (∃ p ∈ parents, HasRoom existing n p) →
        (LeastUtilizedKeeps parents existing n ↔ EmptiestLeast parents existing n)) ↔
      ∀ p ∈ parents, ¬ p.MeetsMapped) := by
  refine ⟨⟨?_, ?_⟩, ?_, ?_⟩
  · intro hkeeps p hp hmeets
    obtain ⟨existing, x, h⟩ := exists_misplaces hdisj hp hmeets
    exact h.not_bestFit (hkeeps existing 128 h.inside ⟨p, hp, h.room⟩)
  · intro hunmapped existing n hinside hroom
    exact Laid.bestFit_smallest ⟨hunmapped, hdisj, hinside⟩ hroom
  · intro hkeeps p hp hmeets
    obtain ⟨existing, x, h⟩ := exists_misplaces hdisj hp hmeets
    exact h.not_leastUtilized ((hkeeps existing 128 h.inside ⟨p, hp, h.room⟩).mpr h.emptiestLeast)
  · intro hunmapped existing n hinside hroom
    exact Laid.leastUtilized_iff ⟨hunmapped, hdisj, hinside⟩ hroom

theorem strategies_choose_tenNet :
    BestFitKeeps [tenNet 0 30, tenNet 8 30] [tenNet 0 32] 32 ∧
      LeastUtilizedKeeps [tenNet 0 30, tenNet 8 30] [tenNet 0 32] 32 := by
  have hunmapped : ∀ p ∈ [tenNet 0 30, tenNet 8 30], ¬ p.MeetsMapped := by decide
  have hinside : ∀ c ∈ [tenNet 0 32], ∃ p ∈ [tenNet 0 30, tenNet 8 30], c.Inside p := by decide
  have hroom : ∃ p ∈ [tenNet 0 30, tenNet 8 30], HasRoom [tenNet 0 32] 32 p :=
    ⟨tenNet 8 30, by decide, tenNet 8 32, by decide, by decide, by decide, by decide⟩
  have hchoose := strategies_choose [tenNet 0 30, tenNet 8 30] (by decide)
  refine ⟨hchoose.1.mpr hunmapped _ _ hinside hroom, (hchoose.2.mpr hunmapped _ _ hinside hroom).mpr ?_⟩
  intro p hp q hq hqroom
  have hsize : ∀ p ∈ [tenNet 0 30, tenNet 8 30], p.size = 4 := by decide
  have hmem : p ∈ [tenNet 0 30, tenNet 8 30] := by
    obtain ⟨pre, post, heq, -⟩ := hp
    rw [heq]
    simp
  exact allocatedFraction_le ((hsize p hmem).trans (hsize q hq).symm) (hp.freeIn_le hq hqroom)

theorem leastUtilized_fuller :
    Laid [tenNet 0 29, tenNet 8 30] [tenNet 0 31, tenNet 2 32] ∧
      findFirstAvailableBlock [tenNet 0 29, tenNet 8 30] [tenNet 0 31, tenNet 2 32] 32 .leastUtilized =
        .ok (tenNet 3 32) ∧
      (tenNet 3 32).Inside (tenNet 0 29) ∧ HasRoom [tenNet 0 31, tenNet 2 32] 32 (tenNet 8 30) ∧
      allocatedFraction (tenNet 8 30) [tenNet 0 31, tenNet 2 32] <
        allocatedFraction (tenNet 0 29) [tenNet 0 31, tenNet 2 32] := by
  refine ⟨⟨by decide, by decide, by decide⟩, by decide, by decide,
    ⟨tenNet 8 32, by decide, by decide, by decide, by decide⟩, ?_⟩
  have hnone : consumedIn (tenNet 8 30) [tenNet 0 31, tenNet 2 32] = 0 := by decide
  have hthree : consumedIn (tenNet 0 29) [tenNet 0 31, tenNet 2 32] = 3 := by decide
  have hsize : (tenNet 0 29).size = 8 := by decide
  simp only [allocatedFraction, hnone, hthree, hsize]
  norm_num

end Ipam.Allocation
