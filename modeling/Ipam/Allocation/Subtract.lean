import Ipam.Allocation.Placement

namespace Ipam.Allocation

/-- The shortest prefix whose block is aligned at the cursor and ends by `stop`. -/
def bestLen (cursor stop totalBits : ℕ) : ℕ :=
  ((List.range (totalBits + 1)).find? fun p =>
    cursor % blockSize p totalBits = 0 ∧ cursor + blockSize p totalBits - 1 ≤ stop).getD totalBits

theorem bestLen_le (cursor stop totalBits : ℕ) : bestLen cursor stop totalBits ≤ totalBits := by
  unfold bestLen
  cases h : (List.range (totalBits + 1)).find? fun p =>
      cursor % blockSize p totalBits = 0 ∧ cursor + blockSize p totalBits - 1 ≤ stop with
  | none => exact le_rfl
  | some p => exact Nat.le_of_lt_succ (List.mem_range.mp (List.mem_of_find?_eq_some h))

def splitRegionIntoAlignedCIDRs (cursor stop : ℕ) (bits : Family) : List IPNet :=
  if cursor ≤ stop then
    makeCIDR cursor (bestLen cursor stop bits.bits) bits (bestLen_le cursor stop bits.bits) ::
      splitRegionIntoAlignedCIDRs (cursor + blockSize (bestLen cursor stop bits.bits) bits.bits) stop bits
  else []
termination_by stop + 1 - cursor
decreasing_by
  have := blockSize_pos (bestLen cursor stop bits.bits) bits.bits
  omega

def subtractCIDR (parent : IPNet) (existing : List IPNet) : List IPNet :=
  (freeRegions parent (filterWithin parent existing)).flatMap fun r =>
    splitRegionIntoAlignedCIDRs r.start r.stop parent.bits

theorem bestLen_spec {cursor stop totalBits : ℕ} (h : cursor ≤ stop) :
    blockSize (bestLen cursor stop totalBits) totalBits ∣ cursor ∧
      cursor + blockSize (bestLen cursor stop totalBits) totalBits - 1 ≤ stop ∧
      ∀ p ≤ totalBits, blockSize p totalBits ∣ cursor → cursor + blockSize p totalBits - 1 ≤ stop →
        bestLen cursor stop totalBits ≤ p := by
  have hone : blockSize totalBits totalBits = 1 := by
    simp only [blockSize, Nat.sub_self, pow_zero]
  cases hfind : (List.range (totalBits + 1)).find? fun p =>
      cursor % blockSize p totalBits = 0 ∧ cursor + blockSize p totalBits - 1 ≤ stop with
  | none =>
    -- a block of one address always fits
    have hlast := List.find?_eq_none.mp hfind totalBits (List.mem_range.mpr (Nat.lt_succ_self _))
    exact absurd (decide_eq_true ⟨by rw [hone, Nat.mod_one], by rw [hone]; omega⟩) hlast
  | some l =>
    have hbest : bestLen cursor stop totalBits = l := by
      simp only [bestLen, hfind, Option.getD_some]
    obtain ⟨hfits, hmem, hleast⟩ := List.find?_range_eq_some.mp hfind
    obtain ⟨haligned, hend⟩ := of_decide_eq_true hfits
    rw [hbest]
    refine ⟨Nat.dvd_of_mod_eq_zero haligned, hend, ?_⟩
    intro p hp hdvd hp'
    by_contra hlt
    have := hleast p (by omega)
    simp only [Nat.mod_eq_zero_of_dvd hdvd, hp', true_and, decide_true, Bool.not_true] at this
    cases this

section

variable {bits : Family} {stop : ℕ} (hstop : stop < 2 ^ bits.bits)

include hstop

theorem taken_block {cursor : ℕ} (h : cursor ≤ stop) :
    let b := makeCIDR cursor (bestLen cursor stop bits.bits) bits (bestLen_le cursor stop bits.bits)
    b.base = cursor ∧ b.Canonical ∧ b.bits = bits ∧ b.size = blockSize (bestLen cursor stop bits.bits) bits.bits ∧
      b.base + b.size ≤ stop + 1 := by
  obtain ⟨hdvd, hend, -⟩ := @bestLen_spec cursor stop bits.bits h
  obtain ⟨hbase, hcanonical, hbits, -, hsize⟩ :=
    @makeCIDR_base cursor _ bits (bestLen_le cursor stop bits.bits) (by omega) hdvd
  have hpos := blockSize_pos (bestLen cursor stop bits.bits) bits.bits
  refine ⟨hbase, hcanonical, hbits, hsize, ?_⟩
  rw [hbase, hsize]
  omega

theorem split_blocks {cursor : ℕ} :
    ∀ b ∈ splitRegionIntoAlignedCIDRs cursor stop bits,
      b.Canonical ∧ b.bits = bits ∧ cursor ≤ b.base ∧ b.base + b.size ≤ stop + 1 := by
  fun_induction splitRegionIntoAlignedCIDRs cursor stop bits with
  | case1 cursor h ih =>
    obtain ⟨hbase, hcanonical, hbits, hsize, hend⟩ := taken_block hstop h
    intro b hb
    rcases List.mem_cons.mp hb with rfl | hb
    · exact ⟨hcanonical, hbits, hbase.ge, hend⟩
    · obtain ⟨hc, hf, hlo, hhi⟩ := ih b hb
      exact ⟨hc, hf, by omega, hhi⟩
  | case2 cursor h =>
    intro b hb
    cases hb

theorem split_before {cursor : ℕ} : (splitRegionIntoAlignedCIDRs cursor stop bits).Pairwise IPNet.Before := by
  fun_induction splitRegionIntoAlignedCIDRs cursor stop bits with
  | case1 cursor h ih =>
    obtain ⟨hbase, -, -, hsize, -⟩ := taken_block hstop h
    refine List.pairwise_cons.mpr ⟨?_, ih⟩
    intro b hb
    have hlo := (split_blocks hstop b hb).2.2.1
    rw [IPNet.Before, hbase, hsize]
    exact hlo
  | case2 cursor h => exact List.Pairwise.nil

theorem split_held {cursor x : ℕ} :
    Held bits (splitRegionIntoAlignedCIDRs cursor stop bits) x ↔ cursor ≤ x ∧ x ≤ stop := by
  fun_induction splitRegionIntoAlignedCIDRs cursor stop bits with
  | case1 cursor h ih =>
    obtain ⟨hbase, -, hbits, hsize, hend⟩ := taken_block hstop h
    simp only [Held, List.mem_cons, exists_eq_or_imp] at ih ⊢
    rw [ih, IPNet.Holds, hbase, hsize]
    rw [hbase, hsize] at hend
    simp only [hbits, true_and]
    omega
  | case2 cursor h =>
    simp only [Held, List.not_mem_nil, false_and, exists_false, false_iff]
    omega

theorem split_inside {cursor : ℕ} {c : IPNet} (hc : c.bits = bits) (hlo : cursor ≤ c.base)
    (hhi : c.base + c.size ≤ stop + 1) : ∃ b ∈ splitRegionIntoAlignedCIDRs cursor stop bits, c.Inside b := by
  fun_induction splitRegionIntoAlignedCIDRs cursor stop bits with
  | case1 cursor h ih =>
    obtain ⟨hbase, -, hbits, hsize, hend⟩ := taken_block hstop h
    have hpos := c.size_pos
    by_cases hnext : cursor + blockSize (bestLen cursor stop bits.bits) bits.bits ≤ c.base
    · obtain ⟨b, hb, hinside⟩ := ih hnext
      exact ⟨b, List.mem_cons_of_mem _ hb, hinside⟩
    · refine ⟨_, List.mem_cons_self, (IPNet.inside_iff _ _).mpr ?_⟩
      rw [hbase, hsize]
      refine ⟨hc.trans hbits.symm, hlo, ?_⟩
      obtain ⟨hdvd, -, hleast⟩ := @bestLen_spec cursor stop bits.bits h
      have hcsize : c.size = blockSize c.ones bits.bits := by
        simp only [IPNet.size, hc]
      rcases le_total (bestLen cursor stop bits.bits) c.ones with hle | hle
      · have hnest := Dyadic.nested_of_meet c.size_dvd_base hdvd
          (hcsize ▸ Cidr.blockSize_anti bits.bits hle) (le_refl c.base) (by omega) hlo (by omega)
        exact hnest.2
      · -- a wider block starts at the cursor too, where the widest was taken
        have hanti := Cidr.blockSize_anti bits.bits hle
        have hstart : c.base = cursor := by
          by_contra hne
          have hcdvd := hanti.trans (hcsize ▸ c.size_dvd_base)
          have := Dyadic.add_le_of_lt hdvd hcdvd (lt_of_le_of_ne hlo (Ne.symm hne))
          omega
        have hones : c.ones ≤ bits.bits := hc ▸ c.ones_le
        have hcdvd : blockSize c.ones bits.bits ∣ cursor := by
          rw [← hstart, ← hcsize]
          exact c.size_dvd_base
        have heq := le_antisymm hle (hleast c.ones hones hcdvd (by omega))
        rw [hstart, hcsize, heq]
  | case2 cursor h =>
    have := c.size_pos
    omega

end

section

variable {p : IPNet} {existing : List IPNet} (hp : ¬ p.MeetsMapped)

include hp

theorem region_lt {r : IPRange} (hr : r ∈ viewParent p existing) :
    p.base ≤ r.start ∧ r.start ≤ r.stop ∧ r.stop < 2 ^ p.bits.bits := by
  obtain ⟨hlo, hle, hhi⟩ := sweep_bounds r hr
  have hlt := p.size_lt
  have hpos := p.size_pos
  rw [IPNet.cidrFirstAddr_of_unmapped hp] at hlo
  rw [IPNet.cidrLastAddr_eq, IPNet.cidrFirstAddr_of_unmapped hp] at hhi
  exact ⟨hlo, hle, by omega⟩

theorem subtractCIDR_blocks : ∀ b ∈ subtractCIDR p existing, b.Canonical ∧ b.bits = p.bits := by
  intro b hb
  obtain ⟨r, hr, hb⟩ := List.mem_flatMap.mp hb
  obtain ⟨hcanonical, hbits, -⟩ := split_blocks (region_lt hp hr).2.2 b hb
  exact ⟨hcanonical, hbits⟩

theorem subtractCIDR_before : (subtractCIDR p existing).Pairwise IPNet.Before := by
  apply List.pairwise_flatMap.mpr
  constructor
  · intro r hr
    exact split_before (region_lt hp hr).2.2
  · apply List.Pairwise.imp_of_mem _ (sweep_pairwise (sorted_wellFormed p existing))
    intro r r' hr hr' hlt b hb c hc
    have hend := (split_blocks (region_lt hp hr).2.2 b hb).2.2.2
    have hstart := (split_blocks (region_lt hp hr').2.2 c hc).2.2.1
    simp only [IPNet.Before]
    omega

theorem subtractCIDR_held {x : ℕ} : Held p.bits (subtractCIDR p existing) x ↔ Vacant p existing x := by
  constructor
  · rintro ⟨b, hb, hx⟩
    obtain ⟨r, hr, hb⟩ := List.mem_flatMap.mp hb
    exact viewParent_vacant hr ((split_held (region_lt hp hr).2.2).mp ⟨b, hb, hx⟩)
  · intro hx
    obtain ⟨r, hr, hlo, hhi⟩ := sweep_run (le_refl (cidrFirstAddr p)) (sorted_wellFormed p existing)
      (vacant_ahead p existing) hx.1.1 (le_refl x) fun y hy hy' => (le_antisymm hy hy') ▸ hx
    obtain ⟨b, hb, hbx⟩ := (split_held (region_lt hp hr).2.2).mpr ⟨hlo, hhi⟩
    exact ⟨b, List.mem_flatMap.mpr ⟨r, hr, hb⟩, hbx⟩

theorem subtractCIDR_inside {c : IPNet} (hc : c.bits = p.bits)
    (hfree : ∀ x, c.Holds p.bits x → Vacant p existing x) : ∃ b ∈ subtractCIDR p existing, c.Inside b := by
  have hpos := c.size_pos
  have hrun : ∀ x, c.base ≤ x → x ≤ c.base + c.size - 1 → Vacant p existing x :=
    fun x hx hx' => hfree x ⟨hc, hx, by omega⟩
  have hstart := (hrun c.base le_rfl (by omega)).1.1
  obtain ⟨r, hr, hlo, hhi⟩ := sweep_run (le_refl (cidrFirstAddr p)) (sorted_wellFormed p existing)
    (vacant_ahead p existing) hstart (by omega) hrun
  obtain ⟨b, hb, hinside⟩ := split_inside (region_lt hp hr).2.2 hc hlo (by omega)
  exact ⟨b, List.mem_flatMap.mpr ⟨r, hr, hb⟩, hinside⟩

end

theorem before_apart {a b : IPNet} (h : a.Before b) : a.Apart b :=
  (IPNet.apart_iff a b).mpr fun _ => Or.inl h

theorem held_family {f g : Family} {cs : List IPNet} (h : ∀ c ∈ cs, c.bits = f) {x : ℕ} (hx : Held g cs x) :
    f = g := by
  obtain ⟨c, hc, hx⟩ := hx
  exact (h c hc).symm.trans hx.1

theorem length_le_of_union {bs cs : List IPNet} (hapart : bs.Pairwise IPNet.Apart)
    (hunion : ∀ b ∈ bs, Held b.bits cs b.base) (hinside : ∀ c ∈ cs, ∃ b ∈ bs, c.Inside b) :
    bs.length ≤ cs.length := by
  have hchoose : ∀ b : IPNet, ∃ c, b ∈ bs → c ∈ cs ∧ c.Inside b := by
    intro b
    by_cases hb : b ∈ bs
    · obtain ⟨c, hc, hbase⟩ := hunion b hb
      obtain ⟨b', hb', hcb'⟩ := hinside c hc
      have heq : b = b' := by
        by_contra hne
        exact hapart.forall hb hb' hne _ _ b.holds_base (hcb' _ _ hbase)
      exact ⟨c, fun _ => ⟨hc, heq ▸ hcb'⟩⟩
    · exact ⟨b, fun h => absurd h hb⟩
  choose cover hcover using hchoose
  have hcard : bs.toFinset.card ≤ cs.toFinset.card := by
    apply Finset.card_le_card_of_injOn cover
    · intro b hb
      exact List.mem_toFinset.mpr (hcover b (List.mem_toFinset.mp hb)).1
    · intro b hb b' hb' heq
      have hin := (hcover b (List.mem_toFinset.mp hb)).2
      have hin' := (hcover b' (List.mem_toFinset.mp hb')).2
      by_contra hne
      have hholds := (cover b).holds_base
      exact hapart.forall (List.mem_toFinset.mp hb) (List.mem_toFinset.mp hb') hne _ _ (hin _ _ hholds)
        (hin' _ _ (heq ▸ hholds))
  calc bs.length = bs.toFinset.card := (List.toFinset_card_of_nodup (apart_nodup hapart)).symm
    _ ≤ cs.toFinset.card := hcard
    _ ≤ cs.length := List.toFinset_card_le cs

theorem subtractCIDR_partition (p : IPNet) (existing : List IPNet) (hp : ¬ p.MeetsMapped)
    (hexisting : ∀ c ∈ existing, ¬ c.MeetsMapped) (hset : p.Settles existing) :
    (∀ b ∈ subtractCIDR p existing, b.Canonical) ∧ Ascending (subtractCIDR p existing) ∧
    (subtractCIDR p existing).Pairwise IPNet.Apart ∧
    (∀ f x, Held f (subtractCIDR p existing) x ↔ p.Holds f x ∧ ¬ Held f existing x) ∧
    ∀ cs : List IPNet, (∀ c ∈ cs, c.Canonical) →
      (∀ f x, Held f cs x ↔ Held f (subtractCIDR p existing) x) →
        (subtractCIDR p existing).length ≤ cs.length := by
  have hblocks := @subtractCIDR_blocks p existing hp
  have hbefore := @subtractCIDR_before p existing hp
  have hapart := hbefore.imp before_apart
  refine ⟨fun b hb => (hblocks b hb).1, ?_, hapart, ?_, ?_⟩
  · apply hbefore.imp
    intro a b hab
    have := a.size_pos
    simp only [IPNet.Before] at hab
    omega
  · intro f x
    constructor
    · intro hx
      obtain rfl := held_family (fun b hb => (hblocks b hb).2) hx
      exact (vacant_iff hp hexisting hset.counts).mp ((subtractCIDR_held hp).mp hx)
    · rintro ⟨hx, hfree⟩
      obtain rfl := hx.1
      exact (subtractCIDR_held hp).mpr ((vacant_iff hp hexisting hset.counts).mpr ⟨hx, hfree⟩)
  · intro cs _ hsame
    apply length_le_of_union hapart
    · intro b hb
      exact (hsame _ _).mpr ⟨b, hb, b.holds_base⟩
    · intro c hc
      have hheld : ∀ f x, c.Holds f x → Held f (subtractCIDR p existing) x :=
        fun f x hx => (hsame f x).mp ⟨c, hc, hx⟩
      have hbits := held_family (fun b hb => (hblocks b hb).2) (hheld _ _ c.holds_base)
      exact subtractCIDR_inside hp hbits.symm fun x hx => (subtractCIDR_held hp).mp (hheld _ x hx)

theorem subtractCIDR_partition_tenNet :
    Ascending (subtractCIDR (tenNet 0 24) [tenNet 5 32, tenNet 4 31, tenNet 128 25]) ∧
      ∀ f x, Held f (subtractCIDR (tenNet 0 24) [tenNet 5 32, tenNet 4 31, tenNet 128 25]) x ↔
        (tenNet 0 24).Holds f x ∧ ¬ Held f [tenNet 5 32, tenNet 4 31, tenNet 128 25] x := by
  obtain ⟨-, hascending, -, hheld, -⟩ := subtractCIDR_partition (tenNet 0 24)
    [tenNet 5 32, tenNet 4 31, tenNet 128 25] (by decide) (by decide) (by decide)
  exact ⟨hascending, hheld⟩

end Ipam.Allocation
