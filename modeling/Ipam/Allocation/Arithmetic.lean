import Ipam.Allocation.ScanWhole

namespace Ipam.Allocation

open FirstFit

namespace IPNet

theorem Canonical.regular {n : IPNet} (h : n.Canonical) : n.Regular := by
  intro hv6 hsome
  by_contra hones
  have hdiv : n.ip.addr / 2 ^ 32 = v4InV6Prefix := by
    by_contra hdiv
    rw [IP.to4_v6 hv6, if_neg hdiv] at hsome
    cases hsome
  -- a shorter mask leaves the last bit of the twelve leading bytes clear
  have hdvd : 2 ^ 33 ∣ n.ip.addr := by
    refine dvd_trans (pow_dvd_pow 2 ?_) h.size_dvd_addr
    rw [hv6]
    simp only [Family.bits]
    omega
  obtain ⟨k, hk⟩ := hdvd
  rw [hk, show (2 : ℕ) ^ 33 * k = 2 ^ 32 * (2 * k) by ring, Nat.mul_div_cancel_left _ (by positivity)] at hdiv
  simp only [v4InV6Prefix] at hdiv
  omega

theorem Canonical.base_of_mapped {n : IPNet} (h : n.Canonical) (hmapped : ¬ n.Native) :
    n.base = mappedStart + cidrFirstAddr n ∧ cidrFirstAddr n < 2 ^ 32 := by
  obtain ⟨hv6, hdiv, -⟩ := shortest_of_not_native hmapped
  have hbase : n.base / 2 ^ 32 = v4InV6Prefix := by rw [← h, hdiv]
  have hfirst : cidrFirstAddr n = n.base % 2 ^ 32 := by
    simp only [cidrFirstAddr, ipToInt, IP.to4_v6 (show (n.ip.mask n.ones).family = .v6 from hv6)]
    rw [show (n.ip.mask n.ones).addr = n.base from rfl, if_pos hbase]
  have hsplit := Nat.div_add_mod n.base (2 ^ 32)
  rw [hbase, Nat.mul_comm] at hsplit
  rw [hfirst]
  exact ⟨hsplit.symm, Nat.mod_lt _ (by positivity)⟩

theorem Canonical.holds_of_mapped {n : IPNet} (h : n.Canonical) (hmapped : ¬ n.Native) (f : Family) (x : ℕ) :
    n.Holds f x ↔ f = .v6 ∧ ∃ y, x = mappedStart + y ∧ n.Mem y := by
  obtain ⟨hbase, -⟩ := h.base_of_mapped hmapped
  obtain ⟨hv6, -⟩ := shortest_of_not_native hmapped
  simp only [Holds, hv6, mem_iff, hbase]
  constructor
  · rintro ⟨rfl, hlo, hhi⟩
    exact ⟨rfl, x - mappedStart, by omega, by omega, by omega⟩
  · rintro ⟨rfl, y, rfl, hlo, hhi⟩
    exact ⟨rfl, by omega, by omega⟩

theorem cidrsOverlap_iff {a b : IPNet} (ha : a.Regular) (hb : b.Regular) :
    cidrsOverlap a b = true ↔ sameFamily a.ip b.ip = true ∧ ∃ x, a.Mem x ∧ b.Mem x := by
  constructor
  · intro h
    simp only [cidrsOverlap, Bool.and_eq_true, Bool.or_eq_true, ha.contains_iff, hb.contains_iff] at h
    obtain ⟨hfam, ⟨-, hmem⟩ | ⟨-, hmem⟩⟩ := h
    · exact ⟨hfam, _, hmem, hb.mem_self⟩
    · exact ⟨hfam, _, ha.mem_self, hmem⟩
  · rintro ⟨hfam, x, hx, hx'⟩
    exact cidrsOverlap_of_mem hfam hx hx'

theorem cidrContains_iff (p c : IPNet) :
    cidrContains p c = true ↔ sameFamily p.ip c.ip = true ∧ ∀ x, c.Mem x → p.Mem x := by
  have hle := c.cidrFirstAddr_le_last
  simp only [cidrContains, Bool.and_eq_true, decide_eq_true_eq, and_assoc, Mem]
  apply and_congr_right
  intro _
  constructor
  · rintro ⟨hlo, hhi⟩ x ⟨hx, hx'⟩
    exact ⟨hlo.trans hx, hx'.trans hhi⟩
  · intro h
    exact ⟨(h _ ⟨le_rfl, hle⟩).1, (h _ ⟨hle, le_rfl⟩).2⟩

section

variable {a b : IPNet}

theorem sameFamily_native (ha : a.Native) (hb : b.Native) : sameFamily a.ip b.ip = true ↔ a.bits = b.bits := by
  rw [sameFamily_iff, ha.shortest, hb.shortest]

theorem sameFamily_mapped (ha : ¬ a.Native) (hb : ¬ b.Native) : sameFamily a.ip b.ip = true := by
  rw [sameFamily_iff, (shortest_of_not_native ha).2.2, (shortest_of_not_native hb).2.2]

theorem sameFamily_mixed (ha : a.Native) (hb : ¬ b.Native) : sameFamily a.ip b.ip = true ↔ a.bits ≠ b.bits := by
  obtain ⟨hv6, -, hshort⟩ := shortest_of_not_native hb
  rw [sameFamily_iff, ha.shortest, hshort, hv6]
  cases a.bits <;> simp

theorem sameFamily_comm (a b : IP) : sameFamily a b = sameFamily b a := by
  simp only [sameFamily]
  cases a.to4.isSome <;> cases b.to4.isSome <;> rfl

end

end IPNet

section

variable {a b : IPNet} (ha : a.Canonical) (hb : b.Canonical)

include ha hb

theorem meet_mapped (hma : ¬ a.Native) (hmb : ¬ b.Native) :
    (∃ f x, a.Holds f x ∧ b.Holds f x) ↔ ∃ x, a.Mem x ∧ b.Mem x := by
  simp only [ha.holds_of_mapped hma, hb.holds_of_mapped hmb]
  constructor
  · rintro ⟨f, x, ⟨rfl, y, rfl, hy⟩, -, z, heq, hz⟩
    obtain rfl : y = z := by omega
    exact ⟨y, hy, hz⟩
  · rintro ⟨x, hx, hx'⟩
    exact ⟨.v6, mappedStart + x, ⟨rfl, x, rfl, hx⟩, rfl, x, rfl, hx'⟩

theorem inside_mapped (hma : ¬ a.Native) (hmb : ¬ b.Native) : b.Inside a ↔ ∀ x, b.Mem x → a.Mem x := by
  simp only [IPNet.Inside, ha.holds_of_mapped hma, hb.holds_of_mapped hmb]
  constructor
  · intro h x hx
    obtain ⟨-, y, heq, hy⟩ := h .v6 (mappedStart + x) ⟨rfl, x, rfl, hx⟩
    obtain rfl : x = y := by omega
    exact hy
  · rintro h f x ⟨rfl, y, rfl, hy⟩
    exact ⟨rfl, y, rfl, h y hy⟩

theorem cidrsOverlap_mixed (hna : a.Native) (hmb : ¬ b.Native) :
    ((cidrsOverlap a b = true ↔ ∃ f x, a.Holds f x ∧ b.Holds f x) ↔
      a.Apart b ∧ (a.bits = b.bits ∨ ∀ x, a.Mem x → ¬ b.Mem x)) := by
  rw [IPNet.cidrsOverlap_iff ha.regular hb.regular, IPNet.sameFamily_mixed hna hmb]
  have hapart : (∃ f x, a.Holds f x ∧ b.Holds f x) ↔ ¬ a.Apart b := by
    simp only [IPNet.Apart, not_forall, not_not, exists_prop]
  rw [hapart]
  by_cases hbits : a.bits = b.bits
  · simp only [hbits, ne_eq, not_true_eq_false, false_and, false_iff, not_not, true_or, and_true]
  · have hfree : a.Apart b := (IPNet.apart_iff a b).mpr fun h => absurd h hbits
    simp only [hbits, ne_eq, not_false_eq_true, true_and, hfree, not_true_eq_false, iff_false, not_exists, not_and,
      false_or]

theorem cidrsOverlap_faithful_iff :
    ((cidrsOverlap a b = true ↔ ∃ f x, a.Holds f x ∧ b.Holds f x) ↔
      ((a.Native ↔ b.Native) ∨ a.Apart b ∧ (a.bits = b.bits ∨ ∀ x, a.Mem x → ¬ b.Mem x))) := by
  by_cases hna : a.Native
  · by_cases hnb : b.Native
    · refine iff_of_true ?_ (Or.inl (iff_of_true hna hnb))
      rw [IPNet.cidrsOverlap_iff ha.regular hb.regular, IPNet.sameFamily_native hna hnb]
      simp only [hna.holds_iff_mem, hnb.holds_iff_mem]
      constructor
      · rintro ⟨hbits, x, hx, hx'⟩
        exact ⟨a.bits, x, ⟨rfl, hx⟩, hbits.symm, hx'⟩
      · rintro ⟨f, x, ⟨hf, hx⟩, hf', hx'⟩
        exact ⟨hf.trans hf'.symm, x, hx, hx'⟩
    · rw [cidrsOverlap_mixed ha hb hna hnb]
      simp only [hna, hnb, iff_false, not_true_eq_false, false_or]
  · by_cases hnb : b.Native
    · have hmixed := cidrsOverlap_mixed hb ha hnb hna
      have hcomm : cidrsOverlap a b = cidrsOverlap b a := by
        simp only [cidrsOverlap, IPNet.sameFamily_comm a.ip, Bool.or_comm (a.contains b.ip)]
      have happart : a.Apart b ↔ b.Apart a := ⟨IPNet.Apart.symm, IPNet.Apart.symm⟩
      have hmem : (∀ x, a.Mem x → ¬ b.Mem x) ↔ ∀ x, b.Mem x → ¬ a.Mem x :=
        forall_congr' fun x => ⟨fun h h' h'' => h h'' h', fun h h' h'' => h h'' h'⟩
      have hbits : a.bits = b.bits ↔ b.bits = a.bits := eq_comm
      rw [hcomm, happart, hmem, hbits]
      simp only [hna, hnb, iff_true, false_or]
      simpa only [and_comm] using hmixed
    · refine iff_of_true ?_ (Or.inl (iff_of_false hna hnb))
      rw [IPNet.cidrsOverlap_iff ha.regular hb.regular, meet_mapped ha hb hna hnb]
      simp only [IPNet.sameFamily_mapped hna hnb, true_and]

theorem cidrContains_faithful_iff :
    ((cidrContains a b = true ↔ b.Inside a) ↔
      ((a.Native ↔ b.Native) ∨ ¬ b.Inside a ∧ (a.bits = b.bits ∨ ¬ ∀ x, b.Mem x → a.Mem x))) := by
  rw [IPNet.cidrContains_iff]
  -- of two networks of which one is mapped, the code compares those of different width
  have hmixed (hfam : sameFamily a.ip b.ip = true ↔ a.bits ≠ b.bits) :
      ((sameFamily a.ip b.ip = true ∧ (∀ x, b.Mem x → a.Mem x) ↔ b.Inside a) ↔
        ¬ b.Inside a ∧ (a.bits = b.bits ∨ ¬ ∀ x, b.Mem x → a.Mem x)) := by
    rw [hfam]
    by_cases hbits : a.bits = b.bits
    · simp only [hbits, ne_eq, not_true_eq_false, false_and, false_iff, true_or, and_true]
    · have hout : ¬ b.Inside a := fun h => hbits ((IPNet.inside_iff b a).mp h).1.symm
      simp only [hbits, ne_eq, not_false_eq_true, true_and, hout, iff_false, false_or]
  by_cases hna : a.Native
  · by_cases hnb : b.Native
    · refine iff_of_true ?_ (Or.inl (iff_of_true hna hnb))
      rw [IPNet.sameFamily_native hna hnb]
      simp only [IPNet.Inside, hna.holds_iff_mem, hnb.holds_iff_mem]
      constructor
      · rintro ⟨hbits, h⟩ f x ⟨hf, hx⟩
        exact ⟨hbits.trans hf, h x hx⟩
      · intro h
        have hself := h b.bits _ ⟨rfl, le_rfl, b.cidrFirstAddr_le_last⟩
        exact ⟨hself.1, fun x hx => (h b.bits x ⟨rfl, hx⟩).2⟩
    · rw [hmixed (IPNet.sameFamily_mixed hna hnb)]
      simp only [hna, hnb, iff_false, not_true_eq_false, false_or]
  · by_cases hnb : b.Native
    · have hfam : sameFamily a.ip b.ip = true ↔ a.bits ≠ b.bits := by
        rw [IPNet.sameFamily_comm, IPNet.sameFamily_mixed hnb hna]
        exact ne_comm
      rw [hmixed hfam]
      simp only [hna, hnb, iff_true, false_or]
    · refine iff_of_true ?_ (Or.inl (iff_of_false hna hnb))
      rw [inside_mapped ha hb hna hnb]
      simp only [IPNet.sameFamily_mapped hna hnb, true_and]

end

/-- Whatever block the search of the parent returns, it is a free block of the parent. -/
def SearchFaithful (p : IPNet) : Prop :=
  ∀ existing, (∀ c ∈ existing, c.Canonical ∧ c.Inside p) → ∀ (n : ℤ) (s : Strategy) b,
    findFirstAvailableBlock [p] existing n s = .ok b → b.Inside p ∧ ∀ c ∈ existing, b.Apart c

theorem searchFaithful_of_unmapped {p : IPNet} (hp : ¬ p.MeetsMapped) : SearchFaithful p := by
  intro existing hexisting n s b hfound
  have hunmapped : ∀ c ∈ existing, ¬ c.MeetsMapped := fun c hc => not_meetsMapped_of_inside (hexisting c hc).2 hp
  have hcounts : p.Counts existing := fun c hc => Or.inl ((hexisting c hc).2 _ _ c.holds_self)
  obtain ⟨b', hfound', q, hq, hsuits⟩ | ⟨herr, -⟩ :=
    findFirstAvailableBlock_suits (List.forall_mem_singleton.mpr hp) hunmapped (List.forall_mem_singleton.mpr hcounts)
      (List.cons_ne_nil p []) n s
  · obtain rfl := List.mem_singleton.mp hq
    obtain rfl := Except.ok.inj (hfound'.symm.trans hfound)
    exact ⟨hsuits.inside, hsuits.apart⟩
  · rw [herr] at hfound
    cases hfound

theorem findFirstAvailableBlock_whole {p : IPNet} {existing : List IPNet} (hp : p.Regular)
    (hnone : filterWithin p existing = []) :
    findFirstAvailableBlock [p] existing p.ones .firstFit = .ok (makeCIDR (cidrFirstAddr p) p.ones p.bits p.ones_le) := by
  have hvacant : ∀ x, Vacant p existing x ↔ p.Mem x := fun x => by simp [Vacant, Accounted, hnone]
  have hunit : unitOf p p.ones = p.size := rfl
  have hfits : Fits (Vacant p existing) (unitOf p p.ones) (cidrFirstAddr p) :=
    ⟨hp.size_dvd, fun x hx hx' => (hvacant x).mpr ((p.mem_iff x).mpr ⟨hx, hx'⟩)⟩
  have hfirst : FirstIn (Vacant p existing) p p.ones
      (some (makeCIDR (cidrFirstAddr p) p.ones p.bits p.ones_le)) := by
    have htakes : Takes p p.ones := by
      have hle : p.ones ≤ p.bits.bits := p.ones_le
      simp only [Takes]
      omega
    refine ⟨htakes, cidrFirstAddr p, ⟨hfits, ?_⟩, rfl⟩
    intro start hstart
    exact ((hvacant start).mp (hstart.isFree start le_rfl (Nat.lt_add_of_pos_right (unitOf_pos p _)))).1
  have hpick : wholePick existing p.ones p = some (makeCIDR (cidrFirstAddr p) p.ones p.bits p.ones_le) :=
    (firstIn_firstFitIn fun size hpos => viewParent_first hpos).unique hfirst
  rw [findFirstAvailableBlock_wholePick existing p.ones (by simp), List.findSome?_cons, hpick]
  rfl

def mappedNet : IPNet :=
  ⟨⟨.v6, mappedStart, by decide⟩, 96, by decide⟩

theorem mappedNet_base : mappedNet.base = mappedStart ∧ mappedNet.size = 2 ^ 32 := by
  decide

theorem mappedNet_not_native : ¬ mappedNet.Native := by
  decide

theorem mappedNet_inside {p : IPNet} (hp : p.Canonical) (hn : p.Native) (hm : p.MeetsMapped) :
    mappedNet.Inside p := by
  obtain ⟨hv6, hlo, hhi⟩ := hm
  obtain ⟨hbase, hsize⟩ := mappedNet_base
  have hpos := p.size_pos
  have hlt : p.base < mappedStart := by
    by_contra hle
    exact hn ⟨hv6, by rw [hp]; omega, by rw [hp]; omega⟩
  have hmeet : p.base ≤ mappedStart ∧ mappedStart < p.base + p.size := ⟨hlt.le, hhi⟩
  rcases IPNet.size_dvd_or_dvd mappedNet p with hdvd | hdvd
  · have hnest := Dyadic.nested_of_meet mappedNet.size_dvd_base p.size_dvd_base hdvd (hbase.le.trans le_rfl)
      (by rw [hbase, hsize]; omega) hmeet.1 hmeet.2
    exact (IPNet.inside_iff _ _).mpr ⟨hv6.symm, hnest⟩
  · have hnest := Dyadic.nested_of_meet p.size_dvd_base mappedNet.size_dvd_base hdvd hmeet.1 hmeet.2 hbase.le
      (by rw [hbase, hsize]; omega)
    rw [hbase] at hnest
    omega

theorem not_searchFaithful_of_mapped {p : IPNet} (hp : p.Canonical) (hn : ¬ p.Native) : ¬ SearchFaithful p := by
  intro h
  have hfound := @findFirstAvailableBlock_whole p [] hp.regular rfl
  obtain ⟨hin, -⟩ := h [] (by simp) _ _ _ hfound
  obtain ⟨hbase, hlt⟩ := hp.base_of_mapped hn
  have hlow := ((IPNet.inside_iff _ _).mp hin).2.1
  have hle := (makeCIDR (cidrFirstAddr p) p.ones p.bits p.ones_le).base_le
  have hstart := pow_le_mappedStart
  have haddr : (makeCIDR (cidrFirstAddr p) p.ones p.bits p.ones_le).ip.addr ≤ cidrFirstAddr p := by
    simp only [makeCIDR, intToIP]
    split
    · exact le_rfl
    · exact Nat.zero_le _
  omega

theorem not_searchFaithful_of_covers {p : IPNet} (hp : p.Canonical) (hn : p.Native) (hm : p.MeetsMapped) :
    ¬ SearchFaithful p := by
  intro h
  have hinside := mappedNet_inside hp hn hm
  have hnone : filterWithin p [mappedNet] = [] := by
    have hfam : ¬ sameFamily p.ip mappedNet.ip = true := by
      rw [IPNet.sameFamily_mixed hn mappedNet_not_native]
      exact not_not.mpr hm.1
    simp [filterWithin, hfam]
  have hfound := findFirstAvailableBlock_whole hp.regular hnone
  obtain ⟨-, hapart⟩ := h [mappedNet] (by simpa using ⟨by decide, hinside⟩) _ _ _ hfound
  have hlt : cidrFirstAddr p < 2 ^ p.bits.bits := by
    rw [hn.first]
    exact p.base_le.trans_lt p.ip.addr_lt
  have hself : makeCIDR (cidrFirstAddr p) p.ones p.bits p.ones_le = p := by
    obtain ⟨⟨f, addr, haddr⟩, ones, hones⟩ := p
    rw [makeCIDR_eq hlt]
    simp only [IPNet.mk.injEq, IP.mk.injEq, true_and, and_true]
    exact hn.first.trans hp.symm
  rw [hself] at hapart
  exact hapart mappedNet (by simp) _ _ (hinside _ _ mappedNet.holds_base) mappedNet.holds_base

theorem addressArithmetic_iff (a b p : IPNet) (ha : a.Canonical) (hb : b.Canonical) (hp : p.Canonical) :
    ((cidrsOverlap a b = true ↔ ∃ f x, a.Holds f x ∧ b.Holds f x) ↔
      ((a.Native ↔ b.Native) ∨ a.Apart b ∧ (a.bits = b.bits ∨ ∀ x, a.Mem x → ¬ b.Mem x))) ∧
    ((cidrContains a b = true ↔ b.Inside a) ↔
      ((a.Native ↔ b.Native) ∨ ¬ b.Inside a ∧ (a.bits = b.bits ∨ ¬ ∀ x, b.Mem x → a.Mem x))) ∧
    (SearchFaithful p ↔ ¬ p.MeetsMapped) := by
  refine ⟨cidrsOverlap_faithful_iff ha hb, cidrContains_faithful_iff ha hb, ?_, searchFaithful_of_unmapped⟩
  intro h hm
  by_cases hn : p.Native
  · exact not_searchFaithful_of_covers hp hn hm h
  · exact not_searchFaithful_of_mapped hp hn h

theorem addressArithmetic_tenNet :
    (cidrsOverlap (tenNet 0 24) (tenNet 8 29) = true ↔
      ∃ f x, (tenNet 0 24).Holds f x ∧ (tenNet 8 29).Holds f x) ∧
    (cidrContains (tenNet 0 24) (tenNet 8 29) = true ↔ (tenNet 8 29).Inside (tenNet 0 24)) ∧
    SearchFaithful (tenNet 0 24) := by
  obtain ⟨hoverlap, hcontains, hsearch⟩ :=
    addressArithmetic_iff (tenNet 0 24) (tenNet 8 29) (tenNet 0 24) (by decide) (by decide) (by decide)
  exact ⟨hoverlap.mpr (Or.inl (by decide)), hcontains.mpr (Or.inl (by decide)), hsearch.mpr (by decide)⟩

def allNet : IPNet :=
  ⟨⟨.v6, 0, by decide⟩, 0, by decide⟩

theorem addressArithmetic_mapped :
    cidrsOverlap allNet mappedNet = false ∧ mappedNet.Inside allNet ∧ cidrContains allNet mappedNet = false ∧
      findFirstAvailableBlock [allNet] [mappedNet] 0 .firstFit = .ok allNet ∧ ¬ allNet.Apart mappedNet := by
  decide

end Ipam.Allocation
