import Ipam.Allocation.Allocate

namespace Ipam.Allocation

namespace Cidr

def MeetsMapped (p : Cidr) : Prop :=
  p.family = .v6 ∧ p.addr < mappedStart + 2 ^ 32 ∧ mappedStart ≤ p.last

instance (p : Cidr) : Decidable p.MeetsMapped :=
  inferInstanceAs (Decidable (_ ∧ _))

end Cidr

def Mapped (f : Family) (x : ℕ) : Prop :=
  f = .v6 ∧ mappedStart ≤ x ∧ x < mappedStart + 2 ^ 32

instance (f : Family) (x : ℕ) : Decidable (Mapped f x) :=
  inferInstanceAs (Decidable (_ ∧ _))

theorem pow_le_mappedStart : 2 ^ 32 ≤ mappedStart :=
  Nat.le_mul_of_pos_left _ (by decide)

theorem mapped_iff_div (x : ℕ) : x / 2 ^ 32 = v4InV6Prefix ↔ mappedStart ≤ x ∧ x < mappedStart + 2 ^ 32 := by
  have h : mappedStart / 2 ^ 32 = v4InV6Prefix := Nat.mul_div_cancel _ (by positivity)
  rw [← h, eq_comm]
  exact Dyadic.div_eq_iff_mem (by positivity) (Dvd.intro_left _ rfl)

theorem Cidr.not_mapped_of_not_meets {p : Cidr} (h : ¬ p.MeetsMapped) {x : ℕ} (hx : p.Mem p.family x) :
    ¬ Mapped p.family x := by
  rintro ⟨hf, hlo, hhi⟩
  exact h ⟨hf, hx.2.1.trans_lt hhi, hlo.trans hx.2.2⟩

theorem Cidr.not_meets_of_within {b p : Cidr} (h : ¬ p.MeetsMapped) (hb : b.within p = true) : ¬ b.MeetsMapped := by
  obtain ⟨hf, haddr, hlast⟩ := (Cidr.within_iff b p).mp hb
  rintro ⟨hv6, hlo, hhi⟩
  exact h ⟨hf ▸ hv6, haddr.trans_lt hlo, hhi.trans hlast⟩

structure BlockAt (p : Cidr) (n start : ℕ) : Prop where
  len_le : p.len ≤ n
  le_bits : n ≤ p.family.bits
  dvd : blockSize n p.family.bits ∣ start
  addr_le : p.addr ≤ start
  le_last : start + blockSize n p.family.bits - 1 ≤ p.last

namespace BlockAt

variable {p : Cidr} {n start : ℕ}

theorem lt (h : BlockAt p n start) : start < 2 ^ p.family.bits := by
  have hpos : 0 < blockSize n p.family.bits := by
    simp only [blockSize]
    positivity
  have := p.last_lt
  have := h.le_last
  omega

def cidr (h : BlockAt p n start) (hm : ¬ Mapped p.family start) : Cidr :=
  ⟨p.family, start, n, h.le_bits, h.dvd, h.lt, fun hf hd => hm ⟨hf, (mapped_iff_div start).mp hd⟩⟩

theorem cidr_within (h : BlockAt p n start) (hm : ¬ Mapped p.family start) :
    (h.cidr hm).within p = true := by
  apply (Cidr.within_iff _ _).mpr
  exact ⟨rfl, h.addr_le, h.le_last⟩

end BlockAt

theorem makeCIDR_eq {start n : ℕ} {f : Family} {h : n ≤ f.bits} (hs : start < 2 ^ f.bits) :
    makeCIDR start n f h = ⟨⟨f, start, hs⟩, n, h⟩ := by
  simp only [makeCIDR, intToIP, dif_pos hs]

theorem string_makeCIDR {p : Cidr} {n start : ℕ} (h : BlockAt p n start) (hm : ¬ Mapped p.family start) :
    (makeCIDR start n p.family h.le_bits).string = some (h.cidr hm) := by
  rw [makeCIDR_eq h.lt]
  exact (h.cidr hm).string_net

theorem string_makeCIDR_mapped {p : Cidr} {n start : ℕ} (h : BlockAt p n start) (hm : Mapped p.family start) :
    ∃ c : Cidr, (makeCIDR start n p.family h.le_bits).string = some c ∧ c.family = .v4 ∧ p.family = .v6 := by
  obtain ⟨hf, hmap⟩ := hm
  have hdiv := (mapped_iff_div start).mpr hmap
  have hdvd : 2 ^ (128 - n) ∣ start := by
    have := h.dvd
    rwa [hf] at this
  have hn : 96 ≤ n := by
    by_contra hlt
    have h33 : 2 ^ 33 ∣ start := (pow_dvd_pow 2 (by omega)).trans hdvd
    simp only [v4InV6Prefix] at hdiv
    omega
  have hle : n ≤ 128 := by
    have := h.le_bits
    rwa [hf] at this
  have hsize : blockSize (n - 96) 32 = 2 ^ (128 - n) := by
    simp only [blockSize]
    congr 1
    omega
  have hlow : blockSize (n - 96) 32 ∣ start % 2 ^ 32 := by
    rw [hsize]
    exact (Nat.dvd_mod_iff (pow_dvd_pow 2 (by omega))).mpr hdvd
  have hbits : n - 96 ≤ Family.v4.bits := by
    simp only [Family.bits]
    omega
  refine ⟨⟨.v4, start % 2 ^ 32, n - 96, hbits, hlow, Nat.mod_lt _ (by positivity), by simp⟩, ?_, rfl, hf⟩
  · rw [makeCIDR_eq h.lt]
    have hnn : (⟨⟨p.family, start, h.lt⟩, n, h.le_bits⟩ : IPNet).networkNumberAndMask =
        (.v4, start % 2 ^ 32, n - 96) := by
      simp only [IPNet.networkNumberAndMask, IP.shortest, IP.to4, hf]
      rw [if_pos hdiv]
    simp only [IPNet.string, hnn]
    exact dif_pos ⟨hbits, hlow, Nat.mod_lt _ (by positivity), by simp⟩

def Settled (p c : Cidr) : Prop :=
  c.within p = true ∨ c.overlaps p = false

theorem Settled.of_family_ne {p c : Cidr} (h : c.family ≠ p.family) : Settled p c := by
  right
  simp only [Cidr.overlaps, beq_false_of_ne h, Bool.false_and]

theorem exists_string_makeCIDR {p : Cidr} {n start : ℕ} (h : BlockAt p n start) :
    ∃ c : Cidr, (makeCIDR start n p.family h.le_bits).string = some c ∧ Settled p c := by
  by_cases hm : Mapped p.family start
  · obtain ⟨c, hc, hc4, hp6⟩ := string_makeCIDR_mapped h hm
    refine ⟨c, hc, Settled.of_family_ne ?_⟩
    rw [hc4, hp6]
    simp
  · exact ⟨h.cidr hm, string_makeCIDR h hm, Or.inl (h.cidr_within hm)⟩

def Cidr.CutFrom (b p : Cidr) : Prop :=
  ∃ n start, ∃ h : BlockAt p n start, (makeCIDR start n p.family h.le_bits).string = some b

namespace Cidr.CutFrom

variable {b p : Cidr}

theorem settled (h : b.CutFrom p) : Settled p b := by
  obtain ⟨n, start, hblock, hb⟩ := h
  obtain ⟨c, hc, hset⟩ := exists_string_makeCIDR hblock
  obtain rfl := Option.some.inj (hc.symm.trans hb)
  exact hset

theorem within (h : b.CutFrom p) (hm : ¬ p.MeetsMapped) : b.within p = true := by
  obtain ⟨n, start, hblock, hb⟩ := h
  have hmem : p.Mem p.family start := by
    have hpos : 0 < blockSize n p.family.bits := Nat.two_pow_pos _
    exact ⟨rfl, hblock.addr_le, by have := hblock.le_last; omega⟩
  have hmapped := p.not_mapped_of_not_meets hm hmem
  rw [string_makeCIDR hblock hmapped] at hb
  obtain rfl := Option.some.inj hb
  exact hblock.cidr_within hmapped

theorem of_within (h : b.within p = true) : b.CutFrom p := by
  obtain ⟨hf, haddr, hlast⟩ := (Cidr.within_iff b p).mp h
  have hlen : p.len ≤ b.len := by
    simp only [Cidr.within, Bool.and_eq_true, decide_eq_true_eq] at h
    exact h.1.2
  obtain ⟨family, addr, len, len_le, aligned, addr_lt, unmapped⟩ := b
  simp only at hf
  subst hf
  refine ⟨len, addr, ⟨hlen, len_le, aligned, haddr, hlast⟩, ?_⟩
  rw [makeCIDR_eq addr_lt]
  exact Cidr.string_net ⟨p.family, addr, len, len_le, aligned, addr_lt, unmapped⟩

end Cidr.CutFrom

end Ipam.Allocation
