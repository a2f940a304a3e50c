import Ipam.Allocation.Address

/-!
A `Cidr` is the text that `net.IPNet.String` prints and PostgreSQL's `cidr` type stores. Printing writes
an IPv4-mapped network in dotted form, so no text of an IPv6 network starts inside `::ffff:0:0/96`.
-/

namespace Ipam.Allocation

structure Cidr where
  family : Family
  addr : ℕ
  len : ℕ
  len_le : len ≤ family.bits
  aligned : blockSize len family.bits ∣ addr
  addr_lt : addr < 2 ^ family.bits
  unmapped : family = .v6 → addr / 2 ^ 32 ≠ v4InV6Prefix
  deriving Repr

namespace Cidr

theorem fields_eq_iff (c d : Cidr) : (c.family = d.family ∧ c.addr = d.addr ∧ c.len = d.len) ↔ c = d := by
  constructor
  · cases c
    cases d
    rintro ⟨rfl, rfl, rfl⟩
    rfl
  · rintro rfl
    exact ⟨rfl, rfl, rfl⟩

instance : DecidableEq Cidr :=
  fun c d => decidable_of_iff _ (fields_eq_iff c d)

theorem tenNetwork_lt : 10 * 2 ^ 24 < 2 ^ Family.v4.bits := by decide

theorem tenNetwork_unmapped : Family.v4 = .v6 → 10 * 2 ^ 24 / 2 ^ 32 ≠ v4InV6Prefix := by decide

def size (c : Cidr) : ℕ := blockSize c.len c.family.bits

def last (c : Cidr) : ℕ := c.addr + c.size - 1

def ip (c : Cidr) : IP := ⟨c.family, c.addr, c.addr_lt⟩

def net (c : Cidr) : IPNet := ⟨c.ip, c.len, c.len_le⟩

/-- The `inet &&` operator: equal on the shorter mask. -/
def overlaps (c d : Cidr) : Bool :=
  c.family == d.family &&
    c.addr / blockSize (min c.len d.len) c.family.bits == d.addr / blockSize (min c.len d.len) c.family.bits

/-- The `inet <<=` operator. -/
def within (c d : Cidr) : Bool :=
  c.family == d.family && d.len ≤ c.len &&
    c.addr / blockSize d.len c.family.bits == d.addr / blockSize d.len c.family.bits

def Mem (c : Cidr) (f : Family) (x : ℕ) : Prop :=
  c.family = f ∧ c.addr ≤ x ∧ x ≤ c.last

instance (c : Cidr) (f : Family) (x : ℕ) : Decidable (c.Mem f x) :=
  inferInstanceAs (Decidable (_ ∧ _))

theorem size_pos (c : Cidr) : 0 < c.size := by
  unfold size blockSize
  positivity

theorem size_dvd (c : Cidr) : c.size ∣ c.addr := c.aligned

theorem addr_le_last (c : Cidr) : c.addr ≤ c.last := by
  have := c.size_pos
  unfold last
  omega

theorem lt_last_succ (c : Cidr) (x : ℕ) : x ≤ c.last ↔ x < c.addr + c.size := by
  have := c.size_pos
  unfold last
  omega

theorem size_dvd_pow (c : Cidr) : c.size ∣ 2 ^ c.family.bits :=
  pow_dvd_pow 2 (Nat.sub_le _ _)

theorem last_lt (c : Cidr) : c.last < 2 ^ c.family.bits := by
  have h : c.addr + c.size ≤ 2 ^ c.family.bits := Dyadic.add_le_of_lt c.size_dvd c.size_dvd_pow c.addr_lt
  have := c.size_pos
  unfold last
  omega

theorem to4_ip (c : Cidr) : c.ip.to4 = match c.family with | .v4 => some c.addr | .v6 => none := by
  obtain ⟨family, addr, len, len_le, aligned, addr_lt, unmapped⟩ := c
  cases family with
  | v4 => rfl
  | v6 => exact if_neg (unmapped rfl)

theorem shortest_ip (c : Cidr) : c.ip.shortest = (c.family, c.addr) := by
  unfold IP.shortest
  rw [to4_ip]
  cases h : c.family with
  | v4 => simp
  | v6 => simp [ip]

theorem ipToInt_ip (c : Cidr) : ipToInt c.ip = c.addr := by
  unfold ipToInt
  rw [to4_ip]
  cases h : c.family <;> simp [ip]

theorem isSome_to4_ip (c : Cidr) : c.ip.to4.isSome = (c.family == .v4) := by
  rw [to4_ip]
  cases c.family <;> rfl

theorem sameFamily_ip (c d : Cidr) : sameFamily c.ip d.ip = (c.family == d.family) := by
  unfold sameFamily
  rw [isSome_to4_ip, isSome_to4_ip]
  cases c.family <;> cases d.family <;> rfl

theorem mask_net (c : Cidr) : c.net.ip.mask c.net.ones = c.ip := by
  unfold IP.mask net ip
  congr 1
  exact Dyadic.sub_mod_eq c.aligned

theorem cidrFirstAddr_net (c : Cidr) : cidrFirstAddr c.net = c.addr := by
  unfold cidrFirstAddr
  rw [mask_net, ipToInt_ip]

theorem cidrLastAddr_net (c : Cidr) : cidrLastAddr c.net = c.last := by
  unfold cidrLastAddr
  rw [cidrFirstAddr_net]
  rfl

theorem cidrBounds_net (c : Cidr) : cidrBounds c.net = (c.addr, c.last) := by
  unfold cidrBounds
  rw [cidrFirstAddr_net]
  rfl

theorem networkNumberAndMask_net (c : Cidr) : c.net.networkNumberAndMask = (c.family, c.addr, c.len) := by
  unfold IPNet.networkNumberAndMask
  have h : c.net.ip.shortest = (c.family, c.addr) := c.shortest_ip
  have hf : c.net.ip.family = c.family := rfl
  rw [h, hf]
  cases c.family <;> rfl

theorem contains_net (c : Cidr) (ip : IP) :
    c.net.contains ip = true ↔ c.Mem ip.shortest.1 ip.shortest.2 := by
  unfold IPNet.contains Mem
  rw [networkNumberAndMask_net]
  simp only [Bool.and_eq_true, beq_iff_eq]
  rw [lt_last_succ]
  exact and_congr_right fun _ => Dyadic.div_eq_iff_mem c.size_pos c.size_dvd

theorem contains_net_ip (c d : Cidr) : c.net.contains d.net.ip = true ↔ c.Mem d.family d.addr := by
  rw [contains_net]
  exact iff_of_eq (by rw [show d.net.ip = d.ip from rfl, shortest_ip])

theorem blockSize_anti {l m : ℕ} (bits : ℕ) (h : l ≤ m) : blockSize m bits ∣ blockSize l bits :=
  pow_dvd_pow 2 (by omega)

theorem size_dvd_size {c d : Cidr} (hf : c.family = d.family) (hl : d.len ≤ c.len) : c.size ∣ d.size := by
  unfold size
  rw [hf]
  exact blockSize_anti _ hl

theorem nested_of_meet {c d : Cidr} (h : c.size ∣ d.size) {x : ℕ} (hc : c.addr ≤ x) (hc' : x ≤ c.last)
    (hd : d.addr ≤ x) (hd' : x ≤ d.last) : d.addr ≤ c.addr ∧ c.last ≤ d.last := by
  have := Dyadic.nested_of_meet c.size_dvd d.size_dvd h hc ((c.lt_last_succ x).mp hc') hd
    ((d.lt_last_succ x).mp hd')
  refine ⟨this.1, ?_⟩
  unfold last
  omega

theorem within_iff (c d : Cidr) :
    c.within d = true ↔ c.family = d.family ∧ d.addr ≤ c.addr ∧ c.last ≤ d.last := by
  unfold within
  simp only [Bool.and_eq_true, beq_iff_eq, decide_eq_true_eq]
  constructor
  · rintro ⟨⟨hf, hl⟩, he⟩
    rw [hf] at he
    have hmem := (Dyadic.div_eq_iff_mem d.size_pos d.size_dvd).mp he.symm
    exact ⟨hf, nested_of_meet (size_dvd_size hf hl) le_rfl c.addr_le_last hmem.1
      ((d.lt_last_succ _).mpr hmem.2)⟩
  · rintro ⟨hf, ha, hl⟩
    refine ⟨⟨hf, ?_⟩, ?_⟩
    · by_contra h
      have hlt : d.size < c.size := by
        unfold size blockSize
        rw [hf]
        exact Nat.pow_lt_pow_right (by norm_num) (by have := d.len_le; omega)
      have := d.size_pos
      unfold last at hl
      omega
    · rw [hf]
      exact ((Dyadic.div_eq_iff_mem d.size_pos d.size_dvd).mpr
        ⟨ha, (d.lt_last_succ _).mp ((c.addr_le_last).trans hl)⟩).symm

theorem overlaps_comm (c d : Cidr) : c.overlaps d = d.overlaps c := by
  unfold overlaps
  by_cases h : c.family = d.family
  · rw [h, min_comm, Bool.beq_comm]
    congr 1
    exact Bool.beq_comm
  · have hc : (c.family == d.family) = false := beq_false_of_ne h
    have hd : (d.family == c.family) = false := beq_false_of_ne (Ne.symm h)
    rw [hc, hd]
    rfl

theorem overlaps_iff_of_len {c d : Cidr} (hl : d.len ≤ c.len) :
    c.overlaps d = true ↔ c.family = d.family ∧ c.addr ≤ d.last ∧ d.addr ≤ c.last := by
  have hw : c.overlaps d = c.within d := by
    unfold overlaps within
    rw [min_eq_right hl, decide_eq_true hl, Bool.and_true]
  rw [hw, within_iff]
  constructor
  · rintro ⟨hf, ha, hb⟩
    exact ⟨hf, (c.addr_le_last).trans hb, ha.trans c.addr_le_last⟩
  · rintro ⟨hf, ha, hb⟩
    exact ⟨hf, nested_of_meet (size_dvd_size hf hl) (le_max_left _ _) (max_le c.addr_le_last hb)
      (le_max_right _ _) (max_le ha d.addr_le_last)⟩

theorem overlaps_iff (c d : Cidr) :
    c.overlaps d = true ↔ c.family = d.family ∧ c.addr ≤ d.last ∧ d.addr ≤ c.last := by
  rcases le_total d.len c.len with h | h
  · exact overlaps_iff_of_len h
  · rw [overlaps_comm, overlaps_iff_of_len h]
    exact ⟨fun ⟨hf, ha, hb⟩ => ⟨hf.symm, hb, ha⟩, fun ⟨hf, ha, hb⟩ => ⟨hf.symm, hb, ha⟩⟩

theorem overlaps_iff_mem (c d : Cidr) : c.overlaps d = true ↔ ∃ f x, c.Mem f x ∧ d.Mem f x := by
  rw [overlaps_iff]
  constructor
  · rintro ⟨hf, ha, hb⟩
    exact ⟨d.family, max c.addr d.addr, ⟨hf, le_max_left _ _, max_le c.addr_le_last hb⟩,
      rfl, le_max_right _ _, max_le ha d.addr_le_last⟩
  · rintro ⟨f, x, ⟨hcf, hc, hc'⟩, hdf, hd, hd'⟩
    exact ⟨hcf.trans hdf.symm, hc.trans hd', hd.trans hc'⟩

theorem Mem.of_within {c d : Cidr} (h : c.within d = true) {f : Family} {x : ℕ} (hx : c.Mem f x) :
    d.Mem f x := by
  obtain ⟨hf, ha, hl⟩ := (within_iff c d).mp h
  exact ⟨hf ▸ hx.1, ha.trans hx.2.1, hx.2.2.trans hl⟩

theorem within_of_overlaps {c d : Cidr} (hl : d.len ≤ c.len) (h : c.overlaps d = true) : c.within d = true := by
  unfold overlaps at h
  unfold within
  rw [min_eq_right hl] at h
  simpa [hl] using h

theorem within_or_within {c d : Cidr} (h : c.overlaps d = true) : c.within d = true ∨ d.within c = true := by
  cases le_total d.len c.len with
  | inl hl => exact .inl (within_of_overlaps hl h)
  | inr hl =>
    rw [overlaps_comm] at h
    exact .inr (within_of_overlaps hl h)

end Cidr

/-- The text `net.IPNet.String` prints, when PostgreSQL accepts it as a `cidr`: one with no bits set to
the right of the mask. -/
def IPNet.string (n : IPNet) : Option Cidr :=
  match n.networkNumberAndMask with
  | (f, a, l) =>
    if h : l ≤ f.bits ∧ blockSize l f.bits ∣ a ∧ a < 2 ^ f.bits ∧ (f = .v6 → a / 2 ^ 32 ≠ v4InV6Prefix) then
      some ⟨f, a, l, h.1, h.2.1, h.2.2.1, h.2.2.2⟩
    else none

theorem Cidr.string_net (c : Cidr) : c.net.string = some c := by
  unfold IPNet.string
  rw [networkNumberAndMask_net]
  exact dif_pos ⟨c.len_le, c.aligned, c.addr_lt, c.unmapped⟩

end Ipam.Allocation
