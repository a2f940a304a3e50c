import Ipam.Allocation.Placement

namespace Ipam.Allocation

open Counting FirstFit

def ParentView.takeFrom (v : ParentView) (i : ℕ) (block : IPNet) : ParentView :=
  match v.regions[i]? with
  | none => v
  | some region =>
    let (bStart, bEnd) := cidrBounds block
    let replacement := (if region.start < bStart then [⟨region.start, bStart - 1⟩] else []) ++
      (if bEnd < region.stop then [⟨bEnd + 1, region.stop⟩] else [])
    ⟨v.parent, v.regions.take i ++ replacement ++ v.regions.drop (i + 1), v.free - cidrSize block⟩

structure AllocationResult where
  block : Option IPNet
  measurement : PoolMeasurement
  deriving DecidableEq, Repr

def allocate (parents existing : List IPNet) (prefixLen : ℤ) (s : Strategy) (r : Reservation) :
    AllocationResult × Option Error :=
  if parents = [] then (⟨none, ⟨0, 0, 0⟩⟩, some .noParent)
  else
    match blockedSet parents existing r with
    | .error e => (⟨none, ⟨0, 0, 0⟩⟩, some e)
    | .ok blocked =>
      let views := viewPool parents blocked
      match selectBlock views prefixLen s with
      | some c =>
        (⟨some c.cidr, measureViews (views.modify c.parentIdx (·.takeFrom c.regionIdx c.cidr))⟩, none)
      | none => (⟨none, measureViews views⟩, some .poolExhausted)

def OnePass (parents existing : List IPNet) (prefixLen : ℤ) (s : Strategy) (r : Reservation) : Prop :=
  let once := allocate parents existing prefixLen s r
  match findFirstAvailableBlockWithReservations parents existing prefixLen s r with
  | .ok b => once.2 = none ∧ once.1.block = some b ∧
      ∃ m, measure parents (existing ++ [b]) r = .ok m ∧
        once.1.measurement.consumed = m.consumed ∧ once.1.measurement.total = m.total
  | .error e => once.2 = some e ∧ once.1.block = none ∧
      (e = .poolExhausted → ∃ m, measure parents existing r = .ok m ∧
        once.1.measurement.consumed = m.consumed ∧ once.1.measurement.total = m.total)

theorem selectBlock_firstFit {parents blocked : List IPNet} {prefixLen : ℤ} {s : Strategy}
    (hs : strategyOrDefault s = .firstFit) :
    (selectBlock (viewPool parents blocked) prefixLen s).map Candidate.cidr =
      (parents.findSome? fun p => firstFitIn p (viewParent p blocked) prefixLen).map Fit.cidr := by
  have hselect : selectBlock (viewPool parents blocked) prefixLen s =
      ((viewPool parents blocked).zipIdx.flatMap (candidatesOf prefixLen)).head? := by
    cases s with
    | unset => rfl
    | firstFit => rfl
    | bestFit => cases hs
    | leastUtilized => cases hs
    | other name => cases hs
  have hhead (v : ParentView × ℕ) : (candidatesOf prefixLen v).head? =
      (firstFitIn v.1.parent v.1.regions prefixLen).map fun f =>
        ⟨f.cidr, rangeSize f.region, v.2, f.regionIdx, v.1.free⟩ := by
    simp only [candidatesOf, List.head?_map, firstFitIn]
  rw [hselect, List.head?_flatMap]
  simp only [hhead]
  -- the indices do not matter to the block
  generalize hk : 0 = k
  clear hk hselect
  induction parents generalizing k with
  | nil => rfl
  | cons p rest ih =>
    simp only [viewPool, List.map_cons, List.zipIdx_cons, List.findSome?_cons]
    cases firstFitIn p (viewParent p blocked) prefixLen with
    | some f => rfl
    | none => exact ih (k + 1)

theorem findFirstAvailableBlock_eq_selectBlock {parents blocked : List IPNet} {prefixLen : ℤ} {s : Strategy}
    (hne : parents ≠ []) :
    findFirstAvailableBlock parents blocked prefixLen s =
      match (selectBlock (viewPool parents blocked) prefixLen s).map Candidate.cidr with
      | some b => .ok b
      | none => .error .poolExhausted := by
  simp only [findFirstAvailableBlock, if_neg hne]
  split
  · rename_i hs
    rw [selectBlock_firstFit hs]
    cases parents.findSome? fun p => firstFitIn p (viewParent p blocked) prefixLen <;> rfl
  · cases selectBlock (viewPool parents blocked) prefixLen s <;> rfl

theorem sum_map_modify {α : Type} {l : List α} {i : ℕ} {a : α} (h : l[i]? = some a) (f : α → α) (g : α → ℕ) :
    ((l.modify i f).map g).sum + g a = (l.map g).sum + g (f a) := by
  induction l generalizing i with
  | nil => cases h
  | cons b l ih =>
    cases i with
    | zero =>
      rw [List.getElem?_cons_zero, Option.some.injEq] at h
      subst h
      simp only [List.modify_zero_cons, List.map_cons, List.sum_cons]
      omega
    | succ i =>
      have hrest := ih (by rwa [List.getElem?_cons_succ] at h)
      simp only [List.modify_succ_cons, List.map_cons, List.sum_cons]
      omega

theorem cidrSize_le_rangeSize {bits : Family} {n : ℕ} {hn : n ≤ bits.bits} {r : IPRange} {b : IPNet}
    (h : fitIn bits n hn r.start r.stop = some b) : cidrSize b ≤ rangeSize r := by
  have hle := Dyadic.le_ceil r.start (blockSize n bits.bits)
  have hpos := blockSize_pos n bits.bits
  rw [fitIn_eq_map] at h
  obtain ⟨start, hstart, rfl⟩ := Option.map_eq_some_iff.mp h
  simp only [startIn] at hstart
  split at hstart
  · rename_i hfit
    have hsize : cidrSize (makeCIDR start n bits hn) = blockSize n bits.bits := by
      simp only [makeCIDR, intToIP]
      split <;> rfl
    rw [hsize, rangeSize]
    omega
  · cases hstart

theorem measureViews_takeFrom {parents blocked : List IPNet} {prefixLen : ℤ} {s : Strategy} {c : Candidate}
    (h : selectBlock (viewPool parents blocked) prefixLen s = some c) :
    let m := measureViews ((viewPool parents blocked).modify c.parentIdx (·.takeFrom c.regionIdx c.cidr))
    m.total = (accounts parents blocked).total ∧
      m.consumed = (accounts parents blocked).consumed + cidrSize c.cidr := by
  obtain ⟨v, hv, f, hf, hcidr, hidx⟩ := selectBlock_candidate h
  obtain ⟨n, hn, -, -, hregion, hfit⟩ := mem_fitsOf hf
  have hroom : cidrSize c.cidr ≤ v.free := by
    obtain ⟨p, -, rfl⟩ := List.mem_map.mp (List.mem_of_getElem? hv)
    have hmem : rangeSize f.region ∈ (viewParent p blocked).map rangeSize :=
      List.mem_map_of_mem (List.mem_of_getElem? hregion)
    rw [hcidr]
    exact (cidrSize_le_rangeSize hfit).trans (List.le_sum_of_mem hmem)
  have htaken : v.takeFrom c.regionIdx c.cidr =
      ⟨v.parent, (v.takeFrom c.regionIdx c.cidr).regions, v.free - cidrSize c.cidr⟩ := by
    simp only [ParentView.takeFrom, hidx, hregion]
  have htotal := sum_map_modify hv (·.takeFrom c.regionIdx c.cidr) fun v => addressCount v.parent
  have hfree := sum_map_modify hv (·.takeFrom c.regionIdx c.cidr) fun v => v.free
  have hviews := measureViews_viewPool parents blocked
  have hadd := accounts_add parents blocked
  simp only [measureViews] at hviews ⊢
  rw [← hviews] at hadd ⊢
  rw [htaken] at htotal hfree
  simp only at htotal hfree hadd ⊢
  omega

theorem measure_eq {parents existing reserved : List IPNet} {r : Reservation} (h : r.blocksIn parents = .ok reserved) :
    measure parents existing r = .ok (accounts parents (existing ++ reserved)) := by
  simp only [measure, blockedSet_eq h, Except.map, measureViews_viewPool]

theorem accounts_taken (parents existing reserved : List IPNet) (b : IPNet) :
    (accounts parents (existing ++ [b] ++ reserved)).total = (accounts parents (existing ++ reserved)).total ∧
      (accounts parents (existing ++ [b] ++ reserved)).consumed =
        (accounts parents (existing ++ reserved)).consumed +
          (parents.map (freshly · (existing ++ reserved) b)).sum := by
  have hsame : accounts parents (existing ++ [b] ++ reserved) = accounts parents (existing ++ reserved ++ [b]) := by
    apply accounts_of_mem_iff
    intro c
    simp only [List.mem_append, List.mem_singleton]
    tauto
  rw [hsame]
  exact ⟨rfl, accounts_consumed_append parents (existing ++ reserved) b⟩

theorem onePass_iff (parents existing : List IPNet) (prefixLen : ℤ) (s : Strategy) (r : Reservation) :
    OnePass parents existing prefixLen s r ↔ ∀ reserved b, parents ≠ [] → r.blocksIn parents = .ok reserved →
      findFirstAvailableBlock parents (existing ++ reserved) prefixLen s = .ok b →
        (parents.map (freshly · (existing ++ reserved) b)).sum = cidrSize b := by
  by_cases hne : parents = []
  · simp [OnePass, allocate, findFirstAvailableBlockWithReservations, hne]
  rcases blockedSet_cases parents existing r with ⟨reserved, hr, hblocked⟩ | ⟨e, hr, hblocked⟩
  · have hfind := @findFirstAvailableBlock_eq_selectBlock parents (existing ++ reserved) prefixLen s hne
    have hmeasure := @measure_eq parents existing reserved r hr
    simp only [OnePass, allocate, findFirstAvailableBlockWithReservations, if_neg hne, hblocked, hfind]
    cases hselect : selectBlock (viewPool parents (existing ++ reserved)) prefixLen s with
    | none =>
      simp only [Option.map_none, true_and, hmeasure, measureViews_viewPool, forall_const]
      constructor
      · intro _ reserved' b _ hr' hb
        obtain rfl : reserved = reserved' := Except.ok.inj (hr.symm.trans hr')
        rw [hfind, hselect] at hb
        cases hb
      · intro _
        exact ⟨_, rfl, rfl, rfl⟩
    | some c =>
      obtain ⟨htotal, hconsumed⟩ := measureViews_takeFrom hselect
      obtain ⟨htotal', hconsumed'⟩ := accounts_taken parents existing reserved c.cidr
      have hmeasure' := @measure_eq parents (existing ++ [c.cidr]) reserved r hr
      simp only [Option.map_some, true_and, hmeasure', Except.ok.injEq, exists_eq_left', htotal, htotal', hconsumed,
        hconsumed', and_true]
      constructor
      · intro hagree reserved' b _ hr' hb
        obtain rfl : reserved = reserved' := Except.ok.inj (hr.symm.trans hr')
        rw [hfind, hselect] at hb
        obtain rfl := Except.ok.inj hb
        omega
      · intro hfresh
        have := hfresh reserved c.cidr hne hr (by rw [hfind, hselect]; rfl)
        omega
  · have hexhausted := blocksIn_error hr
    simp only [OnePass, allocate, findFirstAvailableBlockWithReservations, if_neg hne, hblocked, hexhausted,
      false_implies, and_self, true_iff]
    intro reserved b _ hr'
    rw [hr] at hr'
    cases hr'

theorem findFirstAvailableBlock_fits {parents blocked : List IPNet} {prefixLen : ℤ} {s : Strategy} {b : IPNet}
    (h : findFirstAvailableBlock parents blocked prefixLen s = .ok b) :
    ∃ p ∈ parents, ∃ n, ∃ hn : n ≤ p.bits.bits, ∃ start,
      b = makeCIDR start n p.bits hn ∧ Fits (Vacant p blocked) (blockSize n p.bits.bits) start := by
  have hne : parents ≠ [] := by
    rintro rfl
    cases h
  rw [findFirstAvailableBlock_eq_selectBlock hne] at h
  cases hselect : selectBlock (viewPool parents blocked) prefixLen s with
  | none =>
    rw [hselect] at h
    cases h
  | some c =>
    rw [hselect] at h
    obtain rfl := Except.ok.inj h
    obtain ⟨v, hv, f, hf, hcidr⟩ := selectBlock_mem hselect
    obtain ⟨p, hp, rfl⟩ := List.mem_map.mp hv
    obtain ⟨n, hn, -, -, hr, hfit⟩ := mem_fitsOf hf
    rw [hcidr]
    exact ⟨p, hp, n, hn,
      fits_of_fitIn (fun x hx => viewParent_vacant (List.mem_of_getElem? hr) hx) hfit⟩

section

variable {p : IPNet} {blocked : List IPNet} {n start : ℕ} {hn : n ≤ p.bits.bits} (hm : ¬ p.MeetsMapped)
  (hfits : Fits (Vacant p blocked) (blockSize n p.bits.bits) start)

include hm hfits

theorem makeCIDR_inside : (makeCIDR start n p.bits hn).Inside p ∧ (makeCIDR start n p.bits hn).base = start ∧
    (makeCIDR start n p.bits hn).size = blockSize n p.bits.bits := by
  have hpos := blockSize_pos n p.bits.bits
  have hin : ∀ x, start ≤ x → x < start + blockSize n p.bits.bits → p.Holds p.bits x :=
    fun x hx hx' => (IPNet.holds_iff_mem hm _ x).mpr ⟨rfl, (hfits.isFree x hx hx').1⟩
  have hfirst := hin start le_rfl (by omega)
  have hlast := hin (start + blockSize n p.bits.bits - 1) (by omega) (by omega)
  obtain ⟨hbase, -, hbits, -, hsize⟩ := @makeCIDR_base start n p.bits hn (hfirst.2.2.trans_le p.size_lt) hfits.dvd
  refine ⟨(IPNet.inside_iff _ p).mpr ?_, hbase, hsize⟩
  rw [hbase, hsize]
  exact ⟨hbits, hfirst.2.1, by have := hlast.2.2; omega⟩

theorem freshly_own : freshly p blocked (makeCIDR start n p.bits hn) = blockSize n p.bits.bits := by
  obtain ⟨hinside, hbase, hsize⟩ := @makeCIDR_inside p blocked n start hn hm hfits
  have hb := not_meetsMapped_of_inside hinside hm
  obtain ⟨-, hlo, hhi⟩ := (IPNet.inside_iff _ p).mp hinside
  have hself := (mem_filterWithin_unmapped hm hb).mpr
    ⟨List.mem_singleton.mpr rfl, hinside _ _ (IPNet.holds_self _)⟩
  have hpos := p.size_pos
  rw [hbase] at hlo
  rw [hbase, hsize] at hhi
  refine countIn_block (s := start) ?_ ?_ ?_
  · rwa [IPNet.cidrFirstAddr_of_unmapped hm]
  · rw [IPNet.cidrLastAddr_eq, IPNet.cidrFirstAddr_of_unmapped hm]
    omega
  · intro x _ _
    have hmem : (makeCIDR start n p.bits hn).Mem x ↔ start ≤ x ∧ x < start + blockSize n p.bits.bits := by
      rw [IPNet.mem_iff, IPNet.cidrFirstAddr_of_unmapped hb, hbase, hsize]
    rw [← hmem]
    constructor
    · rintro ⟨⟨c, hc, hx⟩, -⟩
      obtain rfl := List.mem_singleton.mp (mem_filterWithin.mp hc).1
      exact hx
    · intro hx
      refine ⟨⟨_, hself, hx⟩, ?_⟩
      exact (hfits.isFree x (hmem.mp hx).1 (hmem.mp hx).2).2

theorem freshly_other {q : IPNet} (hq : ¬ q.MeetsMapped) (hapart : q.Apart p) :
    freshly q blocked (makeCIDR start n p.bits hn) = 0 := by
  obtain ⟨hinside, -, -⟩ := @makeCIDR_inside p blocked n start hn hm hfits
  have hb := not_meetsMapped_of_inside hinside hm
  apply countIn_none
  rintro x _ _ ⟨⟨c, hc, -⟩, -⟩
  obtain rfl := List.mem_singleton.mp (mem_filterWithin.mp hc).1
  have hholds := ((mem_filterWithin_unmapped hq hb).mp hc).2
  exact hapart _ _ hholds (hinside _ _ (IPNet.holds_self _))

end

theorem onePass_of_unmapped {parents : List IPNet} (hdisj : parents.Pairwise IPNet.Apart)
    (hm : ∀ p ∈ parents, ¬ p.MeetsMapped) (existing : List IPNet) (prefixLen : ℤ) (s : Strategy) (r : Reservation) :
    OnePass parents existing prefixLen s r := by
  rw [onePass_iff]
  intro reserved b _ _ hfind
  obtain ⟨p, hp, n, hn, start, rfl, hfits⟩ := findFirstAvailableBlock_fits hfind
  have hother : ∀ q, q ≠ p → q ∈ parents →
      freshly q (existing ++ reserved) (makeCIDR start n p.bits hn) = 0 := by
    intro q hne hq
    exact freshly_other (hm p hp) hfits (hm q hq) (hdisj.forall hq hp hne)
  have hsize : cidrSize (makeCIDR start n p.bits hn) = blockSize n p.bits.bits :=
    (makeCIDR_inside (hm p hp) hfits).2.2
  rw [List.sum_map_eq_nsmul_single p _ hother, List.count_eq_one_of_mem (apart_nodup hdisj) hp, one_smul,
    freshly_own (hm p hp) hfits, hsize]

theorem accounted_self {q : IPNet} {cs : List IPNet} (h : q ∈ cs) {x : ℕ} (hx : q.Mem x) : Accounted q cs x := by
  refine ⟨q, mem_filterWithin.mpr ⟨h, ?_, ?_⟩, hx⟩
  · rw [sameFamily_iff]
  · by_cases hreg : q.Regular
    · exact (hreg.contains_iff q.ip).mpr ⟨rfl, hreg.mem_self⟩
    · apply IPNet.contains_of_not_regular hreg
      simp only [IPNet.Regular, not_forall] at hreg
      obtain ⟨-, hsome, -⟩ := hreg
      exact (IP.isSome_to4_iff q.ip).mp hsome

theorem freshly_of_self {q b : IPNet} {cs : List IPNet} (h : q ∈ cs) : freshly q cs b = 0 := by
  apply countIn_none
  rintro x hx hx' ⟨-, hfree⟩
  exact hfree (accounted_self h ⟨hx, by omega⟩)

theorem freshly_of_family {q b : IPNet} {cs : List IPNet} (h : q.ip.shortest.1 ≠ b.ip.shortest.1) :
    freshly q cs b = 0 := by
  apply countIn_none
  rintro x _ _ ⟨⟨c, hc, -⟩, -⟩
  obtain ⟨hmem, hfam, -⟩ := mem_filterWithin.mp hc
  obtain rfl := List.mem_singleton.mp hmem
  exact h ((sameFamily_iff _ _).mp hfam)

def single (x : ℕ) : IPNet := makeCIDR x 128 .v6 (by decide)

theorem firstFitIn_single {p : IPNet} {cs : List IPNet} (hv6 : p.bits = .v6) {x : ℕ} (hx : Vacant p cs x)
    (hleast : ∀ y, Vacant p cs y → x ≤ y) :
    (firstFitIn p (viewParent p cs) 128).map Fit.cidr = some (single x) := by
  have hones : p.ones ≤ 128 := by
    have := p.ones_le
    rwa [show p.ip.family = .v6 from hv6] at this
  have hvalid : ¬ ((128 : ℤ) < p.ones ∨ (p.bits.bits : ℤ) < 128) := by
    rw [hv6]
    simp only [Family.bits]
    omega
  have hone : blockSize (128 : ℤ).toNat p.bits.bits = 1 := by
    rw [hv6]
    rfl
  have hanswer := @viewParent_first p cs _ (blockSize_pos (128 : ℤ).toNat p.bits.bits)
  have hknown : Answer (Vacant p cs) (blockSize (128 : ℤ).toNat p.bits.bits) (some x) := by
    rw [hone]
    refine ⟨⟨one_dvd x, ?_⟩, ?_⟩
    · intro y hy hy'
      obtain rfl : y = x := by omega
      exact hx
    · intro y hy
      exact hleast y (hy.isFree y le_rfl (by omega))
  rw [firstFitIn_cidr p (viewParent p cs) 128 hvalid, hanswer.unique hknown]
  obtain ⟨⟨family, addr, addr_lt⟩, ones, ones_le⟩ := p
  simp only [IPNet.bits] at hv6
  subst hv6
  rfl

theorem firstFitIn_none {q : IPNet} {cs : List IPNet} {prefixLen : ℤ}
    (h : q ∈ cs ∨ (q.bits.bits : ℤ) < prefixLen) : firstFitIn q (viewParent q cs) prefixLen = none := by
  by_cases hvalid : prefixLen < q.ones ∨ (q.bits.bits : ℤ) < prefixLen
  · simp only [firstFitIn, fitsOf, dif_pos hvalid, List.head?_nil]
  · have hmem : q ∈ cs := h.resolve_right fun h => hvalid (Or.inr h)
    have hfirst := firstFitIn_cidr q (viewParent q cs) prefixLen hvalid
    have hpos := blockSize_pos prefixLen.toNat q.bits.bits
    have hnone : Answer (Vacant q cs) (blockSize prefixLen.toNat q.bits.bits) none := by
      intro x hx
      have hvacant := hx.isFree x le_rfl (by omega)
      exact hvacant.2 (accounted_self hmem hvacant.1)
    rw [(viewParent_first hpos).unique hnone] at hfirst
    exact Option.map_eq_none_iff.mp hfirst

theorem findSome?_only {α β : Type} {l : List α} {g : α → Option β} {a : α} (ha : a ∈ l)
    (h : ∀ c ∈ l, c ≠ a → g c = none) : l.findSome? g = g a := by
  cases hg : g a with
  | none =>
    apply List.findSome?_eq_none_iff.mpr
    intro c hc
    by_cases hca : c = a
    · rw [hca, hg]
    · exact h c hc hca
  | some b =>
    induction l with
    | nil => cases ha
    | cons c l ih =>
      rw [List.findSome?_cons]
      by_cases hca : c = a
      · rw [hca, hg]
      · rw [h c List.mem_cons_self hca]
        exact ih (List.mem_of_ne_of_mem (Ne.symm hca) ha) fun d hd => h d (List.mem_cons_of_mem _ hd)

theorem not_onePass {parents existing : List IPNet} {p : IPNet} {x : ℕ} (hp : p ∈ parents) (hv6 : p.bits = .v6)
    (hother : ∀ q ∈ parents, q ≠ p → q ∈ existing ∨ q.bits = .v4 ∧ (single x).ip.shortest.1 = .v6)
    (hx : Vacant p existing x) (hleast : ∀ y, Vacant p existing y → x ≤ y)
    (hfam : p.ip.shortest.1 ≠ (single x).ip.shortest.1) :
    ¬ OnePass parents existing 128 .firstFit ⟨0, 0, 0⟩ := by
  have hne : parents ≠ [] := List.ne_nil_of_mem hp
  have hnone : ∀ q ∈ parents, q ≠ p → firstFitIn q (viewParent q existing) 128 = none := by
    intro q hq hqp
    apply firstFitIn_none
    refine (hother q hq hqp).imp_right ?_
    rintro ⟨hv4, -⟩
    rw [hv4]
    decide
  obtain ⟨f, hf, hcidr⟩ := Option.map_eq_some_iff.mp (firstFitIn_single hv6 hx hleast)
  have hfind : findFirstAvailableBlock parents existing 128 .firstFit = .ok (single x) := by
    simp only [findFirstAvailableBlock, if_neg hne, strategyOrDefault, if_true, findSome?_only hp hnone, hf, hcidr]
  have hzero : ∀ q ∈ parents, freshly q existing (single x) = 0 := by
    intro q hq
    by_cases hqp : q = p
    · rw [hqp]
      exact freshly_of_family hfam
    · rcases hother q hq hqp with h | ⟨hv4, hsingle⟩
      · exact freshly_of_self h
      · apply freshly_of_family
        rw [hsingle]
        simp only [IP.shortest, IP.to4_v4 hv4]
        decide
  intro hone
  have hsum := (onePass_iff parents existing 128 .firstFit ⟨0, 0, 0⟩).mp hone [] (single x) hne rfl
    (by rwa [List.append_nil])
  rw [List.append_nil, List.map_congr_left hzero, List.map_const', List.sum_replicate, smul_zero] at hsum
  have := IPNet.size_pos (single x)
  exact absurd hsum.symm (by change (single x).size ≠ 0; omega)

theorem single_base {x : ℕ} (hx : x < 2 ^ 128) :
    (single x).base = x ∧ (single x).Canonical ∧ (single x).bits = .v6 ∧ (single x).ones = 128 ∧ (single x).size = 1 := by
  have hone : blockSize 128 Family.v6.bits = 1 := rfl
  exact @makeCIDR_base x 128 .v6 (le_refl 128) hx (by rw [hone]; exact one_dvd x)

theorem single_native {x : ℕ} (hx : x < 2 ^ 128) (hm : ¬ Mapped .v6 x) :
    (single x).Native ∧ (single x).base = x ∧ (single x).size = 1 ∧ (single x).bits = .v6 ∧
      (single x).ip.shortest = (.v6, x) := by
  obtain ⟨hbase, hcanonical, hbits, -, hsize⟩ := single_base hx
  have haddr : (single x).ip.addr = x := hcanonical.trans hbase
  have hfam : (single x).bits = .v6 := hbits
  have hnative : (single x).Native := by
    intro hmapped
    rw [haddr, hfam] at hmapped
    exact hm hmapped
  refine ⟨hnative, hbase, hsize, hbits, ?_⟩
  rw [hnative.shortest, haddr, hfam]

theorem settles_parents {parents existing : List IPNet} (hdisj : parents.Pairwise IPNet.Apart)
    (h : ∀ c ∈ existing, ∃ p ∈ parents, c.Inside p) : ∀ p ∈ parents, p.Settles existing := by
  intro p hp c hc
  obtain ⟨q, hq, hinside⟩ := h c hc
  by_cases hqp : q = p
  · exact Or.inl (hqp ▸ hinside)
  · exact Or.inr ((hdisj.forall hq hp hqp).of_inside hinside)

def HasRoom (existing : List IPNet) (n : ℤ) (p : IPNet) : Prop :=
  ∃ b, Suits p existing n b

section

variable {p : IPNet} {existing : List IPNet} {x : ℕ}

theorem single_holds_iff (hx : x < 2 ^ 128) (f : Family) (y : ℕ) : (single x).Holds f y ↔ f = .v6 ∧ y = x := by
  obtain ⟨hbase, -, hbits, -, hsize⟩ := single_base hx
  simp only [IPNet.Holds, hbase, hbits, hsize]
  constructor
  · rintro ⟨rfl, hlo, hhi⟩
    exact ⟨rfl, by omega⟩
  · rintro ⟨rfl, rfl⟩
    exact ⟨rfl, le_rfl, by omega⟩

theorem suits_single (hx : x < 2 ^ 128) (hp : p.Holds .v6 x) (hfree : ∀ c ∈ existing, ¬ c.Holds .v6 x) :
    Suits p existing 128 (single x) := by
  obtain ⟨-, hcanonical, -, hones, -⟩ := single_base hx
  refine ⟨hcanonical, by rw [hones]; rfl, ?_, ?_⟩
  · intro f y hy
    obtain ⟨rfl, rfl⟩ := (single_holds_iff hx f y).mp hy
    exact hp
  · intro c hc f y hy
    obtain ⟨rfl, rfl⟩ := (single_holds_iff hx f y).mp hy
    exact hfree c hc

theorem Suits.holds_single (hx : x < 2 ^ 128) (h : Suits p existing 128 (single x)) :
    p.Holds .v6 x ∧ ∀ c ∈ existing, ¬ c.Holds .v6 x := by
  have hself : (single x).Holds .v6 x := (single_holds_iff hx _ _).mpr ⟨rfl, rfl⟩
  exact ⟨h.inside _ _ hself, fun c hc => h.apart c hc _ _ hself⟩

end

/-- All that is free in `p` as the search sees it are the addresses from `x` on, the other parents are full, and the
address `x` itself may not be handed out. -/
structure Misplaces (parents existing : List IPNet) (p : IPNet) (x : ℕ) : Prop where
  mem : p ∈ parents
  wide : p.bits = .v6
  others : ∀ q ∈ parents, q ≠ p → q ∈ existing ∨ q.bits = .v4 ∧ (single x).ip.shortest.1 = .v6
  inside : ∀ c ∈ existing, ∃ q ∈ parents, c.Inside q
  unseen : p.ip.shortest.1 ≠ (single x).ip.shortest.1
  reached : p.Mem x
  vacant : ∀ y, Vacant p existing y ↔ p.Mem y ∧ x ≤ y
  room : HasRoom existing 128 p
  held : ∀ q ∈ parents, ¬ Suits q existing 128 (single x)

theorem holds_pastMapped {p : IPNet} (hnative : p.Native) (hmeets : p.MeetsMapped) :
    p.base ≤ mappedStart ∧ mappedStart + 1 < p.base + p.size := by
  obtain ⟨hv6, hbelow, habove⟩ := hmeets
  have hdiv : ¬ p.ip.addr / 2 ^ 32 = v4InV6Prefix := fun hd => hnative ⟨hv6, (mapped_iff_div _).mp hd⟩
  have hbase : p.base ≤ mappedStart := by
    by_contra hlt
    exact IPNet.masked_unmapped hv6 hdiv ((mapped_iff_div _).mpr ⟨by omega, hbelow⟩)
  refine ⟨hbase, ?_⟩
  by_contra hend
  have hlast : p.base + p.size = mappedStart + 1 := by omega
  -- the end is odd, so the network is a single address
  have hodd : p.size ∣ mappedStart + 1 := hlast ▸ (Nat.dvd_add_self_right.mpr p.size_dvd_base)
  have hone : p.size = 1 := by
    have hpow : p.size = 2 ^ (p.bits.bits - p.ones) := rfl
    cases hexp : p.bits.bits - p.ones with
    | zero => rw [hpow, hexp, pow_zero]
    | succ k =>
      have htwo : 2 ∣ mappedStart + 1 := (Dvd.intro_left (2 ^ k) (pow_succ 2 k).symm).trans (hexp ▸ hpow ▸ hodd)
      exact absurd htwo (by decide)
  have haddr : p.ip.addr = mappedStart := by
    have := p.base_le
    have := p.lt_base_add
    omega
  exact hdiv ((mapped_iff_div _).mpr (by rw [haddr]; omega))

section

variable {parents : List IPNet} (hdisj : parents.Pairwise IPNet.Apart) {p : IPNet} (hp : p ∈ parents)

include hdisj hp

/-- A parent with a mapped address hands out plain IPv6 blocks, and does not see those that are taken. -/
theorem misplaces_inMapped (hnative : ¬ p.Native) : ∃ existing x, Misplaces parents existing p x := by
  obtain ⟨hv6, hdiv, hshort⟩ := IPNet.shortest_of_not_native hnative
  obtain ⟨hlt, hunmapped⟩ := IPNet.cidrFirstAddr_unmapped hv6
  obtain ⟨-, -, -, -, hsingle⟩ := single_native hlt hunmapped
  have hself : p.Holds .v6 p.ip.addr := hv6 ▸ p.holds_self
  have hip : p.ip.addr < 2 ^ 128 := by
    have := p.ip.addr_lt
    rwa [show p.ip.family = .v6 from hv6] at this
  have hx : cidrFirstAddr p ≠ p.ip.addr := by
    intro heq
    exact hunmapped ⟨rfl, (mapped_iff_div _).mp (heq ▸ hdiv)⟩
  let taken := if p.Holds .v6 (cidrFirstAddr p) then [single (cidrFirstAddr p)] else []
  have htaken : ∀ c ∈ taken, c = single (cidrFirstAddr p) ∧ p.Holds .v6 (cidrFirstAddr p) := by
    intro c hc
    simp only [taken] at hc
    split at hc
    · exact ⟨List.mem_singleton.mp hc, ‹_›⟩
    · cases hc
  refine ⟨parents.filter (fun q => q.bits = .v6 ∧ q ≠ p) ++ taken, cidrFirstAddr p, hp, hv6, ?_, ?_,
    by rw [hshort, hsingle]; exact nofun, ⟨le_rfl, p.cidrFirstAddr_le_last⟩, ?_, ⟨single p.ip.addr, suits_single hip hself ?_⟩, ?_⟩
  · intro q hq hqp
    cases hf : q.bits with
    | v4 => exact Or.inr ⟨rfl, by rw [hsingle]⟩
    | v6 => exact Or.inl (List.mem_append_left _ (List.mem_filter.mpr ⟨hq, decide_eq_true ⟨hf, hqp⟩⟩))
  · intro c hc
    rcases List.mem_append.mp hc with hc | hc
    · exact ⟨c, (List.mem_filter.mp hc).1, fun f x hx => hx⟩
    · obtain ⟨rfl, hholds⟩ := htaken c hc
      refine ⟨p, hp, fun f y hy => ?_⟩
      obtain ⟨rfl, rfl⟩ := (single_holds_iff hlt f y).mp hy
      exact hholds
  · intro y
    refine ⟨fun hy => ⟨hy.1, hy.1.1⟩, fun hy => ⟨hy.1, ?_⟩⟩
    rintro ⟨c, hc, -⟩
    obtain ⟨hmem, hfam, hcontains⟩ := mem_filterWithin.mp hc
    have hshape := (sameFamily_iff _ _).mp hfam
    rw [hshort] at hshape
    rcases List.mem_append.mp hmem with hmem | hmem
    · obtain ⟨hcp, hne⟩ := List.mem_filter.mp hmem
      obtain ⟨hc6, hne⟩ := of_decide_eq_true hne
      have hcnative : ¬ c.Native := by
        intro hcn
        rw [hcn.shortest, hc6] at hshape
        cases hshape
      exact hdisj.forall hcp hp hne .v6 c.ip.addr (hc6 ▸ c.holds_self)
        (IPNet.holds_of_contains hnative hcnative hcontains)
    · rw [(htaken c hmem).1, hsingle] at hshape
      cases hshape
  · intro c hc
    rcases List.mem_append.mp hc with hc | hc
    · obtain ⟨hcp, hne⟩ := List.mem_filter.mp hc
      exact fun hholds => hdisj.forall hcp hp (of_decide_eq_true hne).2 _ _ hholds hself
    · rw [(htaken c hc).1, single_holds_iff hlt]
      exact fun heq => hx heq.2.symm
  · intro q hq hsuits
    obtain ⟨hholds, hfree⟩ := hsuits.holds_single hlt
    by_cases hqp : q = p
    · subst hqp
      refine hfree (single (cidrFirstAddr q)) (List.mem_append_right _ ?_) ((single_holds_iff hlt _ _).mpr ⟨rfl, rfl⟩)
      simp only [taken, if_pos hholds, List.mem_singleton]
    · exact hfree q (List.mem_append_left _ (List.mem_filter.mpr ⟨hq, decide_eq_true ⟨hholds.1, hqp⟩⟩)) hholds

/-- A parent around the mapped range does not see that its first mapped address is taken. -/
theorem misplaces_aroundMapped (hnative : p.Native) (hmeets : p.MeetsMapped) :
    ∃ existing x, Misplaces parents existing p x := by
  obtain ⟨hbase, hpast⟩ := holds_pastMapped hnative hmeets
  have hv6 := hmeets.1
  have hshort := hnative.shortest
  have hstart : mappedStart + 1 < 2 ^ 128 := by decide
  have hmem : ∀ x, p.Mem x ↔ p.base ≤ x ∧ x < p.base + p.size := by
    intro x
    rw [IPNet.mem_iff, hnative.first]
  let lower := (List.range (mappedStart - p.base)).map fun i => single (p.base + i)
  have hlower : ∀ c ∈ lower, ∃ y, p.base ≤ y ∧ y < mappedStart ∧ c = single y := by
    intro c hc
    obtain ⟨i, hi, rfl⟩ := List.mem_map.mp hc
    rw [List.mem_range] at hi
    exact ⟨p.base + i, by omega, by omega, rfl⟩
  have hbelow : ∀ y, p.base ≤ y → y < mappedStart → single y ∈ lower := by
    intro y hlo hhi
    exact List.mem_map.mpr ⟨y - p.base, List.mem_range.mpr (by omega), by rw [Nat.add_sub_cancel' hlo]⟩
  refine ⟨parents.filter (fun q => q ≠ p) ++ (lower ++ [single mappedStart]), mappedStart, hp, hv6, ?_, ?_,
    by rw [hshort, hv6, show (single mappedStart).ip.shortest = (.v4, 0) by decide]; exact nofun, (hmem _).mpr ⟨hbase, by omega⟩, ?_, ⟨single (mappedStart + 1), suits_single hstart ⟨hv6, by omega, hpast⟩ ?_⟩, ?_⟩
  · intro q hq hqp
    exact Or.inl (List.mem_append_left _ (List.mem_filter.mpr ⟨hq, decide_eq_true hqp⟩))
  · have hinside : ∀ y, p.base ≤ y → y ≤ mappedStart → (single y).Inside p := by
      intro y hlo hhi f z hz
      obtain ⟨rfl, rfl⟩ := (single_holds_iff (by omega) f z).mp hz
      exact ⟨hv6, hlo, by omega⟩
    intro c hc
    simp only [List.mem_append, List.mem_singleton] at hc
    rcases hc with hc | hc | rfl
    · exact ⟨c, (List.mem_filter.mp hc).1, fun f x hx => hx⟩
    · obtain ⟨y, hlo, hhi, rfl⟩ := hlower c hc
      exact ⟨p, hp, hinside y hlo hhi.le⟩
    · exact ⟨p, hp, hinside mappedStart hbase le_rfl⟩
  · intro y
    constructor
    · intro hy
      refine ⟨hy.1, ?_⟩
      by_contra hlt
      have hlo := ((hmem y).mp hy.1).1
      obtain ⟨hsnative, hsbase, hssize, hsbits, hsshort⟩ :=
        single_native (show y < 2 ^ 128 by omega) fun hm => absurd hm.2.1 (by omega)
      apply hy.2
      refine ⟨single y, mem_filterWithin.mpr ⟨?_, ?_, ?_⟩, ?_⟩
      · exact List.mem_append_right _ (List.mem_append_left _ (hbelow y hlo (by omega)))
      · rw [sameFamily_iff, hshort, hsshort, hv6]
      · apply (hnative.regular.contains_iff _).mpr
        rw [hshort, hsshort, hv6]
        exact ⟨rfl, hy.1⟩
      · rw [IPNet.mem_iff, hsnative.first, hsbase, hssize]
        omega
    · rintro ⟨hy, hle⟩
      refine ⟨hy, ?_⟩
      rintro ⟨c, hc, hcy⟩
      obtain ⟨hc', hfam, -⟩ := mem_filterWithin.mp hc
      have hshape := (sameFamily_iff _ _).mp hfam
      rw [hshort, hv6] at hshape
      simp only [List.mem_append, List.mem_singleton] at hc'
      rcases hc' with hc' | hc' | rfl
      · obtain ⟨hcp, hne⟩ := List.mem_filter.mp hc'
        have hcnative : c.Native := by
          by_contra hcn
          rw [(IPNet.shortest_of_not_native hcn).2.2] at hshape
          cases hshape
        rw [hcnative.shortest] at hshape
        have hy' := (hmem y).mp hy
        exact hdisj.forall hcp hp (of_decide_eq_true hne) .v6 y ((hcnative.holds_iff_mem _ _).mpr ⟨hshape.symm, hcy⟩)
          ⟨hv6, hy'.1, hy'.2⟩
      · obtain ⟨z, -, hhi, rfl⟩ := hlower c hc'
        obtain ⟨hsnative, hsbase, hssize, -, -⟩ :=
          single_native (show z < 2 ^ 128 by omega) fun hm => absurd hm.2.1 (by omega)
        rw [IPNet.mem_iff, hsnative.first, hsbase, hssize] at hcy
        omega
      · rw [show (single mappedStart).ip.shortest = (.v4, 0) by decide] at hshape
        cases hshape
  · intro c hc hholds
    simp only [List.mem_append, List.mem_singleton] at hc
    rcases hc with hc | hc | rfl
    · obtain ⟨hcp, hne⟩ := List.mem_filter.mp hc
      exact hdisj.forall hcp hp (of_decide_eq_true hne) _ _ hholds ⟨hv6, by omega, hpast⟩
    · obtain ⟨y, -, hhi, rfl⟩ := hlower c hc
      have := ((single_holds_iff (by omega) _ _).mp hholds).2
      omega
    · have := ((single_holds_iff (by omega) _ _).mp hholds).2
      omega
  · intro q hq hsuits
    obtain ⟨-, hfree⟩ := hsuits.holds_single (show mappedStart < 2 ^ 128 by decide)
    exact hfree (single mappedStart) (by simp) ((single_holds_iff (by decide) _ _).mpr ⟨rfl, rfl⟩)

theorem exists_misplaces (hmeets : p.MeetsMapped) : ∃ existing x, Misplaces parents existing p x := by
  by_cases hnative : p.Native
  · exact misplaces_aroundMapped hdisj hp hnative hmeets
  · exact misplaces_inMapped hdisj hp hnative

end

/-- The pass agrees with search and measurement, whatever is held, wanted and reserved, exactly when no parent
meets the IPv4-mapped range. -/
theorem allocate_onePass_iff (parents : List IPNet) (hdisj : parents.Pairwise IPNet.Apart) :
    (∀ existing prefixLen s r, (∀ p ∈ parents, p.Settles existing) → OnePass parents existing prefixLen s r) ↔
      ∀ p ∈ parents, ¬ p.MeetsMapped := by
  constructor
  · intro h p hp hmeets
    obtain ⟨existing, x, hmisplaces⟩ := exists_misplaces hdisj hp hmeets
    refine not_onePass hp hmisplaces.wide hmisplaces.others ((hmisplaces.vacant x).mpr ⟨hmisplaces.reached, le_rfl⟩)
      (fun y hy => ((hmisplaces.vacant y).mp hy).2) hmisplaces.unseen ?_
    exact h existing 128 .firstFit ⟨0, 0, 0⟩ (settles_parents hdisj hmisplaces.inside)
  · intro hm existing prefixLen s r _
    exact onePass_of_unmapped hdisj hm existing prefixLen s r

theorem allocate_onePass_tenNet :
    OnePass [tenNet 8 30, tenNet 0 30] [tenNet 10 32] 32 .bestFit ⟨32, 1, 0⟩ :=
  (allocate_onePass_iff [tenNet 8 30, tenNet 0 30] (by decide)).mpr (by decide) _ _ _ _ (by decide)

theorem allocate_onePass_fails :
    let parent : IPNet := ⟨⟨.v6, 0xfffe * 2 ^ 32, by decide⟩, 95, by decide⟩
    let held : IPNet := ⟨⟨.v6, 0xfffe * 2 ^ 32, by decide⟩, 96, by decide⟩
    let block : IPNet := ⟨⟨.v6, 0xffff * 2 ^ 32, by decide⟩, 96, by decide⟩
    held.Inside parent ∧ allocate [parent] [held] 96 .firstFit ⟨0, 0, 0⟩ = (⟨some block, ⟨2 ^ 33, 2 ^ 33, 0⟩⟩, none) ∧
      measure [parent] ([held] ++ [block]) ⟨0, 0, 0⟩ = .ok ⟨2 ^ 33, 2 ^ 32, 2 ^ 32⟩ := by
  decide +kernel

end Ipam.Allocation
