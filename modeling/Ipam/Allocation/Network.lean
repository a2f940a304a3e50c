import Ipam.Allocation.Block

/-!
The addresses of a `net.IPNet`. Nothing is asked of the network but that the `net` package reads its
mask as the mask of its address: a sixteen-byte address of the IPv4-mapped range is read as the four-byte
one, and then a mask shorter than 96 bits is a mask of every IPv4 address.
-/

namespace Ipam.Allocation

namespace IPNet

def size (n : IPNet) : ℕ := blockSize n.ones n.bits.bits

def base (n : IPNet) : ℕ := (n.ip.mask n.ones).addr

def Mem (n : IPNet) (x : ℕ) : Prop :=
  cidrFirstAddr n ≤ x ∧ x ≤ cidrLastAddr n

instance (n : IPNet) : DecidablePred n.Mem :=
  fun _ => inferInstanceAs (Decidable (_ ∧ _))

def Holds (n : IPNet) (f : Family) (x : ℕ) : Prop :=
  n.bits = f ∧ n.base ≤ x ∧ x < n.base + n.size

instance (n : IPNet) (f : Family) (x : ℕ) : Decidable (n.Holds f x) :=
  inferInstanceAs (Decidable (_ ∧ _))

def Inside (c p : IPNet) : Prop :=
  ∀ f x, c.Holds f x → p.Holds f x

def Apart (c p : IPNet) : Prop :=
  ∀ f x, c.Holds f x → ¬ p.Holds f x

def MeetsMapped (n : IPNet) : Prop :=
  n.bits = .v6 ∧ n.base < mappedStart + 2 ^ 32 ∧ mappedStart < n.base + n.size

instance (n : IPNet) : Decidable n.MeetsMapped :=
  inferInstanceAs (Decidable (_ ∧ _))

def Regular (n : IPNet) : Prop :=
  n.bits = .v6 → n.ip.to4.isSome → 96 ≤ n.ones

theorem size_pos (n : IPNet) : 0 < n.size := by
  unfold size blockSize
  positivity

theorem base_eq (n : IPNet) : n.base = n.ip.addr - n.ip.addr % n.size := rfl

theorem base_le (n : IPNet) : n.base ≤ n.ip.addr := by
  rw [base_eq]
  omega

theorem lt_base_add (n : IPNet) : n.ip.addr < n.base + n.size := by
  have := Nat.mod_lt n.ip.addr n.size_pos
  rw [base_eq]
  omega

theorem size_dvd_base (n : IPNet) : n.size ∣ n.base := by
  rw [base_eq]
  exact Nat.dvd_sub_mod _

theorem cidrLastAddr_eq (n : IPNet) : cidrLastAddr n = cidrFirstAddr n + n.size - 1 := rfl

theorem mem_iff (n : IPNet) (x : ℕ) : n.Mem x ↔ cidrFirstAddr n ≤ x ∧ x < cidrFirstAddr n + n.size := by
  have := n.size_pos
  unfold Mem
  rw [cidrLastAddr_eq]
  omega

theorem addressCount_eq (n : IPNet) : addressCount n = n.size := rfl

theorem cidrFirstAddr_le_last (n : IPNet) : cidrFirstAddr n ≤ cidrLastAddr n := by
  have := n.size_pos
  rw [cidrLastAddr_eq]
  omega

end IPNet

theorem IP.to4_v4 {ip : IP} (h : ip.family = .v4) : ip.to4 = some ip.addr := by
  simp only [IP.to4, h]

theorem IP.to4_v6 {ip : IP} (h : ip.family = .v6) :
    ip.to4 = if ip.addr / 2 ^ 32 = v4InV6Prefix then some (ip.addr % 2 ^ 32) else none := by
  simp only [IP.to4, h]

theorem IP.isSome_to4_iff (ip : IP) : ip.to4.isSome = true ↔ ip.shortest.1 = .v4 := by
  unfold IP.shortest
  cases ip.to4 <;> simp

theorem sameFamily_iff (a b : IP) : sameFamily a b = true ↔ a.shortest.1 = b.shortest.1 := by
  unfold sameFamily IP.shortest
  cases a.to4 <;> cases b.to4 <;> simp

theorem ipToInt_eq (ip : IP) : ipToInt ip = ip.shortest.2 := by
  unfold ipToInt IP.shortest
  cases ip.to4 <;> rfl

namespace IPNet

theorem masked_unmapped {n : IPNet} (hv6 : n.bits = .v6) (h : ¬ n.ip.addr / 2 ^ 32 = v4InV6Prefix) :
    ¬ n.base / 2 ^ 32 = v4InV6Prefix := by
  have hbits : n.size = 2 ^ (128 - n.ones) := by
    unfold size
    rw [hv6]
    rfl
  intro hbase
  rcases le_or_gt 96 n.ones with hones | hones
  · -- the mask leaves the twelve leading bytes alone
    apply h
    rw [← hbase]
    have hdvd : n.size ∣ 2 ^ 32 := by
      rw [hbits]
      exact pow_dvd_pow 2 (by omega)
    obtain ⟨k, hk⟩ := hdvd
    have hdiv : n.ip.addr / n.size = n.base / n.size :=
      ((Dyadic.div_eq_iff_floor n.size_pos).mpr ⟨by rw [← base_eq], by rw [← base_eq]; have := n.size_pos; omega⟩)
    rw [hk, ← Nat.div_div_eq_div_mul, ← Nat.div_div_eq_div_mul, hdiv]
  · -- the mask clears the lowest bit of the prefix
    have hdvd : 2 ^ 33 ∣ n.base := by
      refine Dvd.dvd.trans ?_ n.size_dvd_base
      rw [hbits]
      exact pow_dvd_pow 2 (by omega)
    simp only [v4InV6Prefix] at hbase
    omega

theorem Regular.number {n : IPNet} (h : n.Regular) :
    ∃ l, n.networkNumberAndMask = (n.ip.shortest.1, n.ip.shortest.2, l) ∧
      blockSize l n.ip.shortest.1.bits = n.size ∧
      cidrFirstAddr n = n.ip.shortest.2 - n.ip.shortest.2 % n.size := by
  cases hf : n.ip.family with
  | v4 =>
    have hshort : n.ip.shortest = (.v4, n.ip.addr) := by
      simp only [IP.shortest, IP.to4_v4 hf]
    have hmask : (n.ip.mask n.ones).shortest = (.v4, n.base) := by
      simp only [IP.shortest, IP.to4_v4 (show (n.ip.mask n.ones).family = .v4 from hf), base]
    refine ⟨n.ones, ?_, ?_, ?_⟩
    · simp only [networkNumberAndMask, hf, hshort]
    · simp only [hshort, size, bits, hf]
    · simp only [cidrFirstAddr, ipToInt_eq, hmask, hshort, base_eq]
  | v6 =>
    have hto4 := IP.to4_v6 hf
    have hto4' := IP.to4_v6 (show (n.ip.mask n.ones).family = .v6 from hf)
    by_cases hm : n.ip.addr / 2 ^ 32 = v4InV6Prefix
    · rw [if_pos hm] at hto4
      have hones : 96 ≤ n.ones := h hf (by rw [hto4]; rfl)
      have hle : n.ones ≤ 128 := by
        have := n.ones_le
        rwa [hf] at this
      have hsize : n.size = 2 ^ (128 - n.ones) := by simp only [size, bits, hf, blockSize, Family.bits]
      have hdvd : n.size ∣ 2 ^ 32 := by
        rw [hsize]
        exact pow_dvd_pow 2 (by omega)
      have hmod : n.ip.addr % 2 ^ 32 % n.size = n.ip.addr % n.size := Nat.mod_mod_of_dvd _ hdvd
      have hlow : n.ip.addr % n.size ≤ n.ip.addr % 2 ^ 32 := by
        rw [← hmod]
        exact Nat.mod_le _ _
      have hsplit := Nat.div_add_mod n.ip.addr (2 ^ 32)
      have hbase : n.base = 2 ^ 32 * v4InV6Prefix + (n.ip.addr % 2 ^ 32 - n.ip.addr % n.size) := by
        rw [base_eq, ← hm]
        omega
      have hlt : n.ip.addr % 2 ^ 32 - n.ip.addr % n.size < 2 ^ 32 :=
        (Nat.sub_le _ _).trans_lt (Nat.mod_lt _ (by positivity))
      have hpfx : n.base / 2 ^ 32 = v4InV6Prefix := by
        rw [hbase]
        omega
      have hrest : n.base % 2 ^ 32 = n.ip.addr % 2 ^ 32 - n.ip.addr % n.size := by
        rw [hbase]
        omega
      have hshort : n.ip.shortest = (.v4, n.ip.addr % 2 ^ 32) := by simp only [IP.shortest, hto4]
      have hmask : (n.ip.mask n.ones).shortest = (.v4, n.base % 2 ^ 32) := by
        rw [if_pos (show (n.ip.mask n.ones).addr / 2 ^ 32 = v4InV6Prefix from hpfx)] at hto4'
        simp only [IP.shortest, hto4', base]
      refine ⟨n.ones - 96, ?_, ?_, ?_⟩
      · simp only [networkNumberAndMask, hf, hshort]
      · rw [hshort, hsize]
        simp only [blockSize, Family.bits]
        congr 1
        omega
      · simp only [cidrFirstAddr, ipToInt_eq, hmask, hshort, hrest, hmod]
    · rw [if_neg hm] at hto4
      have hshort : n.ip.shortest = (.v6, n.ip.addr) := by simp only [IP.shortest, hto4]
      have hmask : (n.ip.mask n.ones).shortest = (.v6, n.base) := by
        rw [if_neg (show ¬ (n.ip.mask n.ones).addr / 2 ^ 32 = v4InV6Prefix from masked_unmapped hf hm)] at hto4'
        simp only [IP.shortest, hto4', base]
      refine ⟨n.ones, ?_, ?_, ?_⟩
      · simp only [networkNumberAndMask, hf, hshort]
      · simp only [hshort, size, bits, hf]
      · simp only [cidrFirstAddr, ipToInt_eq, hmask, hshort, base_eq]

theorem Regular.contains_iff {n : IPNet} (h : n.Regular) (ip : IP) :
    n.contains ip = true ↔ n.ip.shortest.1 = ip.shortest.1 ∧ n.Mem ip.shortest.2 := by
  obtain ⟨l, hnumber, hsize, hfirst⟩ := h.number
  simp only [contains, hnumber, hsize, Bool.and_eq_true, beq_iff_eq, mem_iff, hfirst]
  exact and_congr_right fun _ => Dyadic.div_eq_iff_floor n.size_pos

theorem Regular.mem_self {n : IPNet} (h : n.Regular) : n.Mem n.ip.shortest.2 := by
  obtain ⟨l, -, -, hfirst⟩ := h.number
  have := Nat.mod_lt n.ip.shortest.2 n.size_pos
  rw [mem_iff, hfirst]
  omega

theorem Regular.size_dvd {n : IPNet} (h : n.Regular) : n.size ∣ cidrFirstAddr n := by
  obtain ⟨l, -, -, hfirst⟩ := h.number
  rw [hfirst]
  exact Nat.dvd_sub_mod _

theorem contains_of_not_regular {n : IPNet} (h : ¬ n.Regular) {ip : IP} (hip : ip.shortest.1 = .v4) :
    n.contains ip = true := by
  simp only [Regular, not_forall, not_le] at h
  obtain ⟨hv6, hsome, hones⟩ := h
  have hm : n.ip.addr / 2 ^ 32 = v4InV6Prefix := by
    by_contra hm
    rw [IP.to4_v6 hv6, if_neg hm] at hsome
    cases hsome
  have hshort : n.ip.shortest = (.v4, n.ip.addr % 2 ^ 32) := by
    simp only [IP.shortest, IP.to4_v6 hv6, if_pos hm]
  have hnumber : n.networkNumberAndMask = (.v4, n.ip.addr % 2 ^ 32, n.ones - 96) := by
    simp only [networkNumberAndMask, hshort, show n.ip.family = .v6 from hv6]
  have hx : ip.shortest.2 < 2 ^ 32 := by
    obtain ⟨family, addr, hlt⟩ := ip
    cases family with
    | v4 => exact hlt
    | v6 =>
      unfold IP.shortest at hip ⊢
      rw [IP.to4_v6 rfl] at hip ⊢
      split
      · rename_i heq
        split at heq
        · obtain rfl := Option.some.inj heq
          exact Nat.mod_lt _ (by positivity)
        · cases heq
      · rename_i heq
        rw [heq] at hip
        cases hip
  have hzero : n.ones - 96 = 0 := by omega
  simp only [contains, hnumber, hip, hzero, Bool.and_eq_true, beq_iff_eq, blockSize, Family.bits, true_and]
  rw [Nat.div_eq_of_lt (Nat.mod_lt _ (by positivity)), Nat.div_eq_of_lt hx]

theorem size_dvd_or_dvd (a b : IPNet) : a.size ∣ b.size ∨ b.size ∣ a.size := by
  rcases le_total (a.bits.bits - a.ones) (b.bits.bits - b.ones) with h | h
  · exact Or.inl (pow_dvd_pow 2 h)
  · exact Or.inr (pow_dvd_pow 2 h)

theorem Regular.mem_of_meet {a b : IPNet} (ha : a.Regular) (hb : b.Regular) (hdvd : a.size ∣ b.size) {x y : ℕ}
    (hx : a.Mem x) (hx' : b.Mem x) (hy : a.Mem y) : b.Mem y := by
  rw [mem_iff] at hx hx' hy ⊢
  have := Dyadic.nested_of_meet ha.size_dvd hb.size_dvd hdvd hx.1 hx.2 hx'.1 hx'.2
  omega

theorem cidrsOverlap_of_mem {a b : IPNet} (hfam : sameFamily a.ip b.ip = true) {x : ℕ} (ha : a.Mem x)
    (hb : b.Mem x) : cidrsOverlap a b = true := by
  have hshort := (sameFamily_iff a.ip b.ip).mp hfam
  have hfour {n : IPNet} (h : ¬ n.Regular) : n.ip.shortest.1 = .v4 := by
    simp only [Regular, not_forall] at h
    obtain ⟨-, hsome, -⟩ := h
    exact (IP.isSome_to4_iff n.ip).mp hsome
  simp only [cidrsOverlap, hfam, Bool.true_and, Bool.or_eq_true]
  by_cases hra : a.Regular
  · by_cases hrb : b.Regular
    · rcases size_dvd_or_dvd a b with hdvd | hdvd
      · right
        exact (hrb.contains_iff a.ip).mpr ⟨hshort.symm, hra.mem_of_meet hrb hdvd ha hb hra.mem_self⟩
      · left
        exact (hra.contains_iff b.ip).mpr ⟨hshort, hrb.mem_of_meet hra hdvd hb ha hrb.mem_self⟩
    · right
      apply contains_of_not_regular hrb
      rw [hshort]
      exact hfour hrb
  · left
    apply contains_of_not_regular hra
    rw [← hshort]
    exact hfour hra

theorem holds_self (n : IPNet) : n.Holds n.bits n.ip.addr :=
  ⟨rfl, n.base_le, n.lt_base_add⟩

theorem holds_base (n : IPNet) : n.Holds n.bits n.base :=
  ⟨rfl, le_rfl, Nat.lt_add_of_pos_right n.size_pos⟩

theorem inside_iff (c p : IPNet) :
    c.Inside p ↔ c.bits = p.bits ∧ p.base ≤ c.base ∧ c.base + c.size ≤ p.base + p.size := by
  have hsize := c.size_pos
  constructor
  · intro h
    obtain ⟨hbits, hlo, -⟩ := h _ _ c.holds_base
    obtain ⟨-, -, hhi⟩ := h c.bits (c.base + c.size - 1) ⟨rfl, by omega, by omega⟩
    exact ⟨hbits.symm, hlo, by omega⟩
  · rintro ⟨hbits, hlo, hhi⟩ f x ⟨hf, hx, hx'⟩
    exact ⟨hbits ▸ hf, by omega, by omega⟩

theorem apart_iff (c p : IPNet) :
    c.Apart p ↔ (c.bits = p.bits → c.base + c.size ≤ p.base ∨ p.base + p.size ≤ c.base) := by
  have hc := c.size_pos
  have hp := p.size_pos
  constructor
  · intro h hbits
    by_contra hmeet
    -- the larger of the two network numbers would be in both
    rcases le_total c.base p.base with hle | hle
    · exact h c.bits p.base ⟨rfl, hle, by omega⟩ ⟨hbits.symm, le_rfl, by omega⟩
    · exact h c.bits c.base ⟨rfl, le_rfl, by omega⟩ ⟨hbits.symm, hle, by omega⟩
  · rintro h f x ⟨hf, hx, hx'⟩ ⟨hf', hy, hy'⟩
    rcases h (hf.trans hf'.symm) with h | h <;> omega

instance (c p : IPNet) : Decidable (c.Inside p) :=
  decidable_of_iff _ (inside_iff c p).symm

instance : DecidableRel Apart :=
  fun c p => decidable_of_iff _ (apart_iff c p).symm

theorem Apart.symm {c p : IPNet} (h : c.Apart p) : p.Apart c :=
  fun f x hp hc => h f x hc hp

instance : Std.Symm Apart :=
  ⟨fun _ _ => Apart.symm⟩

theorem Inside.trans {c d p : IPNet} (h : c.Inside d) (h' : d.Inside p) : c.Inside p :=
  fun f x hx => h' f x (h f x hx)

theorem Apart.of_inside {c d p : IPNet} (h : d.Apart p) (h' : c.Inside d) : c.Apart p :=
  fun f x hx => h f x (h' f x hx)

theorem not_mapped_of_holds {n : IPNet} (h : ¬ n.MeetsMapped) {f : Family} {x : ℕ} (hx : n.Holds f x) :
    ¬ Mapped f x := by
  rintro ⟨hf, hlo, hhi⟩
  exact h ⟨hx.1.trans hf, hx.2.1.trans_lt hhi, hlo.trans_lt hx.2.2⟩

def Native (n : IPNet) : Prop :=
  ¬ Mapped n.bits n.ip.addr

instance (n : IPNet) : Decidable n.Native :=
  inferInstanceAs (Decidable (¬ _))

theorem native_of_unmapped {n : IPNet} (h : ¬ n.MeetsMapped) : n.Native :=
  not_mapped_of_holds h n.holds_self

theorem Native.shortest {n : IPNet} (h : n.Native) : n.ip.shortest = (n.bits, n.ip.addr) := by
  unfold IP.shortest
  cases hf : n.ip.family with
  | v4 => simp only [IP.to4_v4 hf, bits, hf]
  | v6 =>
    have hdiv : ¬ n.ip.addr / 2 ^ 32 = v4InV6Prefix := fun hd => h ⟨hf, (mapped_iff_div _).mp hd⟩
    simp only [IP.to4_v6 hf, if_neg hdiv, bits, hf]

theorem Native.regular {n : IPNet} (h : n.Native) : n.Regular := by
  intro hv6 hsome
  have hshort := (IP.isSome_to4_iff n.ip).mp hsome
  rw [h.shortest, hv6] at hshort
  cases hshort

theorem Native.first {n : IPNet} (h : n.Native) : cidrFirstAddr n = n.base := by
  obtain ⟨l, -, -, hfirst⟩ := h.regular.number
  rw [hfirst, h.shortest, base_eq]

theorem Native.holds_iff_mem {n : IPNet} (h : n.Native) (f : Family) (x : ℕ) :
    n.Holds f x ↔ n.bits = f ∧ n.Mem x := by
  rw [mem_iff, h.first]
  rfl

theorem shortest_of_unmapped {n : IPNet} (h : ¬ n.MeetsMapped) : n.ip.shortest = (n.bits, n.ip.addr) :=
  (native_of_unmapped h).shortest

theorem regular_of_unmapped {n : IPNet} (h : ¬ n.MeetsMapped) : n.Regular :=
  (native_of_unmapped h).regular

theorem cidrFirstAddr_of_unmapped {n : IPNet} (h : ¬ n.MeetsMapped) : cidrFirstAddr n = n.base :=
  (native_of_unmapped h).first

theorem holds_iff_mem {n : IPNet} (h : ¬ n.MeetsMapped) (f : Family) (x : ℕ) :
    n.Holds f x ↔ n.bits = f ∧ n.Mem x :=
  (native_of_unmapped h).holds_iff_mem f x

theorem shortest_of_not_native {n : IPNet} (h : ¬ n.Native) :
    n.bits = .v6 ∧ n.ip.addr / 2 ^ 32 = v4InV6Prefix ∧ n.ip.shortest = (.v4, n.ip.addr % 2 ^ 32) := by
  obtain ⟨hv6, hmapped⟩ := not_not.mp h
  have hdiv := (mapped_iff_div n.ip.addr).mpr hmapped
  exact ⟨hv6, hdiv, by simp only [IP.shortest, IP.to4_v6 hv6, if_pos hdiv]⟩

theorem holds_of_contains {p c : IPNet} (hp : ¬ p.Native) (hc : ¬ c.Native) (h : p.contains c.ip = true) :
    p.Holds .v6 c.ip.addr := by
  obtain ⟨hv6, hdiv, hshort⟩ := shortest_of_not_native hp
  obtain ⟨-, hdiv', hshort'⟩ := shortest_of_not_native hc
  have hsize : p.size = 2 ^ (128 - p.ones) := by
    unfold size
    rw [hv6]
    rfl
  have hnumber : p.networkNumberAndMask = (.v4, p.ip.addr % 2 ^ 32, p.ones - 96) := by
    simp only [networkNumberAndMask, hshort, show p.ip.family = .v6 from hv6]
  simp only [contains, hnumber, hshort', Bool.and_eq_true, beq_iff_eq, true_and, blockSize, Family.bits] at h
  refine ⟨hv6, ?_⟩
  rw [base_eq]
  apply (Dyadic.div_eq_iff_floor p.size_pos).mp
  rcases le_or_gt 96 p.ones with hones | hones
  · have hpow : 32 - (p.ones - 96) = 128 - p.ones := by omega
    obtain ⟨k, hk⟩ : p.size ∣ 2 ^ 32 := by
      rw [hsize]
      exact pow_dvd_pow 2 (by omega)
    rw [hpow, ← hsize] at h
    have hsplit (a : ℕ) : a / p.size = k * (a / 2 ^ 32) + a % 2 ^ 32 / p.size := by
      have ha := Nat.div_add_mod a (2 ^ 32)
      conv_lhs => rw [← ha, hk, Nat.mul_assoc, Nat.mul_add_div p.size_pos]
      rw [← hk]
    rw [hsplit p.ip.addr, hsplit c.ip.addr, hdiv, hdiv', h]
  · have hpow : p.size = 2 ^ 32 * 2 ^ (96 - p.ones) := by
      rw [hsize, ← pow_add]
      congr 1
      omega
    rw [hpow, ← Nat.div_div_eq_div_mul, ← Nat.div_div_eq_div_mul, hdiv, hdiv']

theorem cidrFirstAddr_unmapped {n : IPNet} (hv6 : n.bits = .v6) :
    cidrFirstAddr n < 2 ^ 128 ∧ ¬ Mapped .v6 (cidrFirstAddr n) := by
  have hto4 := IP.to4_v6 (show (n.ip.mask n.ones).family = .v6 from hv6)
  have hlt : (n.ip.mask n.ones).addr < 2 ^ 128 := by
    have := (n.ip.mask n.ones).addr_lt
    rwa [show (n.ip.mask n.ones).family = .v6 from hv6] at this
  simp only [cidrFirstAddr, ipToInt, hto4]
  by_cases hdiv : (n.ip.mask n.ones).addr / 2 ^ 32 = v4InV6Prefix
  · have hmod := Nat.mod_lt (n.ip.mask n.ones).addr (show 0 < 2 ^ 32 by positivity)
    have hstart := pow_le_mappedStart
    simp only [if_pos hdiv]
    exact ⟨by omega, fun h => absurd h.2.1 (by omega)⟩
  · simp only [if_neg hdiv]
    exact ⟨hlt, fun h => hdiv ((mapped_iff_div _).mpr h.2)⟩

end IPNet

theorem mem_filterWithin_unmapped {p c : IPNet} {cs : List IPNet} (hp : ¬ p.MeetsMapped) (hc : ¬ c.MeetsMapped) :
    c ∈ filterWithin p cs ↔ c ∈ cs ∧ p.Holds c.bits c.ip.addr := by
  simp only [filterWithin, List.mem_filter, Bool.and_eq_true, sameFamily_iff,
    (IPNet.regular_of_unmapped hp).contains_iff, IPNet.holds_iff_mem hp, IPNet.shortest_of_unmapped hp,
    IPNet.shortest_of_unmapped hc]
  exact and_congr_right fun _ => ⟨fun h => h.2, fun h => ⟨h.1, h⟩⟩

theorem apart_nodup {parents : List IPNet} (h : parents.Pairwise IPNet.Apart) : parents.Nodup := by
  apply h.imp
  rintro p q hapart rfl
  exact hapart _ _ p.holds_base p.holds_base

theorem tenNet_addr_lt (lastByte : Fin 256) : 0x0a000000 + lastByte.val < 2 ^ Family.v4.bits := by
  have := lastByte.isLt
  simp only [Family.bits]
  omega

theorem tenNet_ones_le (len : Fin 33) : len.val ≤ Family.v4.bits :=
  Nat.le_of_lt_succ len.isLt

def tenNet (lastByte : Fin 256) (len : Fin 33) : IPNet :=
  ⟨⟨.v4, 0x0a000000 + lastByte.val, tenNet_addr_lt lastByte⟩, len.val, tenNet_ones_le len⟩

end Ipam.Allocation
