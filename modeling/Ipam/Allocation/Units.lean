import Ipam.Allocation.Network
import Ipam.Allocation.Reservation

namespace Ipam.Allocation

namespace IPNet

def Canonical (n : IPNet) : Prop :=
  n.ip.addr = n.base

instance (n : IPNet) : Decidable n.Canonical :=
  inferInstanceAs (Decidable (_ = _))

theorem Canonical.size_dvd_addr {n : IPNet} (h : n.Canonical) : n.size ∣ n.ip.addr :=
  h ▸ n.size_dvd_base

theorem size_lt (n : IPNet) : n.base + n.size ≤ 2 ^ n.bits.bits := by
  have hdvd : n.size ∣ 2 ^ n.bits.bits := pow_dvd_pow 2 (Nat.sub_le _ _)
  exact Dyadic.add_le_of_lt n.size_dvd_base hdvd (n.base_le.trans_lt n.ip.addr_lt)

end IPNet

theorem makeCIDR_base {start n : ℕ} {f : Family} {h : n ≤ f.bits} (hs : start < 2 ^ f.bits)
    (hdvd : blockSize n f.bits ∣ start) :
    (makeCIDR start n f h).base = start ∧ (makeCIDR start n f h).Canonical ∧
      (makeCIDR start n f h).bits = f ∧ (makeCIDR start n f h).ones = n ∧
      (makeCIDR start n f h).size = blockSize n f.bits := by
  rw [makeCIDR_eq hs]
  have hbase : (⟨⟨f, start, hs⟩, n, h⟩ : IPNet).base = start := Dyadic.sub_mod_eq hdvd
  exact ⟨hbase, hbase.symm, rfl, rfl, rfl⟩

theorem eq_makeCIDR {b : IPNet} (hb : b.Canonical) {n : ℕ} {f : Family} (h : n ≤ f.bits) (hones : b.ones = n)
    (hbits : b.bits = f) : b = makeCIDR b.base n f h := by
  obtain ⟨⟨family, addr, addr_lt⟩, ones, ones_le⟩ := b
  simp only [IPNet.bits] at hbits hones
  subst hbits hones
  have hbase : (⟨⟨family, addr, addr_lt⟩, ones, ones_le⟩ : IPNet).base = addr := hb.symm
  rw [hbase, makeCIDR_eq addr_lt]

section

variable (bits : Family) (unit : ℕ) (h : unit ≤ bits.bits)

def unitsIn (p : IPNet) : List IPNet :=
  (List.range (2 ^ (unit - p.ones))).map fun n =>
    makeCIDR (cidrFirstAddr p + n * blockSize unit bits.bits) unit bits h

def unitsOf (ps : List IPNet) : List IPNet :=
  ps.flatMap (unitsIn bits unit h)

theorem length_unitsIn (p : IPNet) : (unitsIn bits unit h p).length = 2 ^ (unit - p.ones) := by
  simp only [unitsIn, List.length_map, List.length_range]

theorem length_unitsOf (ps : List IPNet) :
    (unitsOf bits unit h ps).length = (ps.map fun p => 2 ^ (unit - p.ones)).sum := by
  simp only [unitsOf, List.length_flatMap, length_unitsIn]

theorem leadingUnits_eq_take (m : ℕ) (ps : List IPNet) :
    leadingUnits bits unit h m ps = (unitsOf bits unit h ps).take m := by
  induction ps generalizing m with
  | nil => simp [leadingUnits, unitsOf]
  | cons p ps ih =>
    have hrest : m - min m (2 ^ (unit - p.ones)) = m - 2 ^ (unit - p.ones) := by omega
    simp only [leadingUnits, hrest, ih]
    simp only [unitsOf, List.flatMap_cons, List.take_append, length_unitsIn]
    simp only [unitsIn, ← List.map_take, List.take_range]

variable {bits unit}

theorem size_eq_units {p : IPNet} (hbits : p.bits = bits) (hp : p.ones ≤ unit) (hu : unit ≤ bits.bits) :
    p.size = 2 ^ (unit - p.ones) * blockSize unit bits.bits := by
  simp only [IPNet.size, blockSize, hbits, ← pow_add]
  congr 1
  omega

theorem unit_from_end {p : IPNet} (hbits : p.bits = bits) (hp : p.ones ≤ unit) (hu : unit ≤ bits.bits) {k : ℕ}
    (hk : k < 2 ^ (unit - p.ones)) :
    cidrLastAddr p + 1 - (k + 1) * blockSize unit bits.bits =
      cidrFirstAddr p + (2 ^ (unit - p.ones) - 1 - k) * blockSize unit bits.bits := by
  have hsize := size_eq_units hbits hp hu
  have hmul : (2 ^ (unit - p.ones) - 1 - k) * blockSize unit bits.bits + (k + 1) * blockSize unit bits.bits =
      p.size := by
    rw [← Nat.add_mul, hsize]
    congr 1
    omega
  have := p.size_pos
  rw [IPNet.cidrLastAddr_eq]
  omega

theorem trailingUnits_eq_take {ps : List IPNet} (hbits : ∀ p ∈ ps, p.bits = bits) (hp : ∀ p ∈ ps, p.ones ≤ unit)
    (m : ℕ) : trailingUnits bits unit h m ps =
      (ps.flatMap fun p => (unitsIn bits unit h p).reverse).take m := by
  induction ps generalizing m with
  | nil => simp [trailingUnits]
  | cons p ps ih =>
    obtain ⟨hbits₀, hbits'⟩ := List.forall_mem_cons.mp hbits
    obtain ⟨hp₀, hp'⟩ := List.forall_mem_cons.mp hp
    have hrest : m - min m (2 ^ (unit - p.ones)) = m - 2 ^ (unit - p.ones) := by omega
    simp only [trailingUnits, hrest, ih hbits' hp', List.flatMap_cons, List.take_append, List.length_reverse,
      length_unitsIn]
    congr 1
    apply List.ext_getElem
    · simp only [List.length_map, List.length_range, List.length_take, List.length_reverse, length_unitsIn]
    · intro k hk hk'
      simp only [List.length_map, List.length_range, lt_min_iff] at hk
      simp only [List.getElem_map, List.getElem_range, List.getElem_take, List.getElem_reverse, unitsIn,
        List.length_map, List.length_range]
      rw [unit_from_end hbits₀ hp₀ h hk.2]

theorem trailingUnits_eq_drop {ps : List IPNet} (hbits : ∀ p ∈ ps, p.bits = bits)
    (hp : ∀ p ∈ ps, p.ones ≤ unit) (m : ℕ) :
    (trailingUnits bits unit h m ps.reverse).reverse =
      (unitsOf bits unit h ps).drop ((unitsOf bits unit h ps).length - m) := by
  have hbits' : ∀ p ∈ ps.reverse, p.bits = bits := fun p hmem => hbits p (List.mem_reverse.mp hmem)
  have hp' : ∀ p ∈ ps.reverse, p.ones ≤ unit := fun p hmem => hp p (List.mem_reverse.mp hmem)
  have hrev : (ps.reverse.flatMap fun p => (unitsIn bits unit h p).reverse) = (unitsOf bits unit h ps).reverse := by
    rw [unitsOf, List.reverse_flatMap]
    rfl
  rw [trailingUnits_eq_take h hbits' hp', hrev, List.take_reverse, List.reverse_reverse]

theorem blockSize_dvd_base {p : IPNet} (hbits : p.bits = bits) (hp : p.ones ≤ unit) (hu : unit ≤ bits.bits) :
    blockSize unit bits.bits ∣ p.base := by
  refine Dvd.dvd.trans ?_ p.size_dvd_base
  rw [size_eq_units hbits hp hu]
  exact Dvd.intro_left _ rfl

theorem mem_unitsIn {p b : IPNet} (hm : ¬ p.MeetsMapped) (hbits : p.bits = bits) (hp : p.ones ≤ unit) :
    b ∈ unitsIn bits unit h p ↔ b.Canonical ∧ b.ones = unit ∧ b.Inside p := by
  have hsize := size_eq_units hbits hp h
  have hdvd := blockSize_dvd_base hbits hp h
  have hpos : 0 < blockSize unit bits.bits := Nat.two_pow_pos _
  have hlt := p.size_lt
  rw [hbits] at hlt
  simp only [unitsIn, List.mem_map, List.mem_range, IPNet.cidrFirstAddr_of_unmapped hm, IPNet.inside_iff]
  constructor
  · rintro ⟨k, hk, rfl⟩
    have hend : (k + 1) * blockSize unit bits.bits ≤ p.size := hsize ▸ Nat.mul_le_mul_right _ hk
    rw [Nat.add_mul] at hend
    obtain ⟨hbase, hcanonical, hfam, hones, hblock⟩ :=
      @makeCIDR_base (p.base + k * blockSize unit bits.bits) unit bits h (by omega)
        (Nat.dvd_add hdvd (Dvd.intro_left _ rfl))
    rw [hbase, hblock]
    exact ⟨hcanonical, hones, hfam.trans hbits.symm, by omega, by omega⟩
  · rintro ⟨hcanonical, hones, hfam, hlo, hhi⟩
    have hblock : b.size = blockSize unit bits.bits := by
      simp only [IPNet.size, hones, hfam, hbits]
    have hbdvd : blockSize unit bits.bits ∣ b.base - p.base := Nat.dvd_sub (hblock ▸ b.size_dvd_base) hdvd
    have hk : (b.base - p.base) / blockSize unit bits.bits * blockSize unit bits.bits = b.base - p.base :=
      Nat.div_mul_cancel hbdvd
    refine ⟨(b.base - p.base) / blockSize unit bits.bits, ?_, ?_⟩
    · apply (Nat.div_lt_iff_lt_mul hpos).mpr
      rw [← hsize]
      omega
    · rw [hk, Nat.add_sub_cancel' hlo]
      exact (eq_makeCIDR hcanonical h hones (hfam.trans hbits)).symm

def Ascending (us : List IPNet) : Prop :=
  us.Pairwise fun a b => a.base < b.base

theorem unitsIn_ascending {p : IPNet} (hm : ¬ p.MeetsMapped) (hbits : p.bits = bits) (hp : p.ones ≤ unit) :
    Ascending (unitsIn bits unit h p) := by
  have hsize := size_eq_units hbits hp h
  have hdvd := blockSize_dvd_base hbits hp h
  have hpos : 0 < blockSize unit bits.bits := Nat.two_pow_pos _
  have hlt := p.size_lt
  rw [hbits] at hlt
  have hbase : ∀ k < 2 ^ (unit - p.ones),
      (makeCIDR (cidrFirstAddr p + k * blockSize unit bits.bits) unit bits h).base =
        p.base + k * blockSize unit bits.bits := by
    intro k hk
    have hend : (k + 1) * blockSize unit bits.bits ≤ p.size := hsize ▸ Nat.mul_le_mul_right _ hk
    rw [Nat.add_mul] at hend
    rw [IPNet.cidrFirstAddr_of_unmapped hm]
    exact (makeCIDR_base (by omega) (Nat.dvd_add hdvd (Dvd.intro_left _ rfl))).1
  apply List.pairwise_map.mpr
  apply List.Pairwise.imp_of_mem _ List.pairwise_lt_range
  intro j k hj hk hjk
  rw [hbase j (List.mem_range.mp hj), hbase k (List.mem_range.mp hk)]
  have := Nat.mul_lt_mul_of_pos_right hjk hpos
  omega

def IPNet.Before (p q : IPNet) : Prop :=
  p.base + p.size ≤ q.base

instance : Trans IPNet.Before IPNet.Before IPNet.Before where
  trans := by
    intro p q r hpq hqr
    exact hpq.trans ((Nat.le_add_right _ _).trans hqr)

structure Numbering (unit : ℕ) (parents us : List IPNet) : Prop where
  ascending : Ascending us
  mem : ∀ b, b ∈ us ↔ b.Canonical ∧ b.ones = unit ∧ ∃ p ∈ parents, b.Inside p

theorem Ascending.eq_of_mem_iff {us vs : List IPNet} (hu : Ascending us) (hv : Ascending vs)
    (hmem : ∀ b, b ∈ us ↔ b ∈ vs) : us = vs := by
  have hnodup : ∀ {ws : List IPNet}, Ascending ws → ws.Nodup := by
    intro ws hws
    apply hws.imp
    rintro a b hlt rfl
    exact lt_irrefl _ hlt
  have hperm : us.Perm vs := (List.perm_ext_iff_of_nodup (hnodup hu) (hnodup hv)).mpr hmem
  exact List.Perm.eq_of_pairwise (fun a b _ _ hab hba => absurd hab hba.asymm) hu hv hperm

theorem Numbering.unique {parents qs us vs : List IPNet} (hu : Numbering unit parents us)
    (hv : Numbering unit qs vs) (hmem : ∀ p, p ∈ parents ↔ p ∈ qs) : us = vs := by
  apply hu.ascending.eq_of_mem_iff hv.ascending
  intro b
  rw [hu.mem, hv.mem]
  simp only [hmem]

theorem unitsOf_numbering {ps : List IPNet} (hm : ∀ p ∈ ps, ¬ p.MeetsMapped) (hbits : ∀ p ∈ ps, p.bits = bits)
    (hp : ∀ p ∈ ps, p.ones ≤ unit) (horder : ps.Pairwise IPNet.Before) : Numbering unit ps (unitsOf bits unit h ps) := by
  have hmem : ∀ p ∈ ps, ∀ b, b ∈ unitsIn bits unit h p ↔ b.Canonical ∧ b.ones = unit ∧ b.Inside p :=
    fun p hmem b => mem_unitsIn h (hm p hmem) (hbits p hmem) (hp p hmem)
  constructor
  · apply List.pairwise_flatMap.mpr
    constructor
    · intro p hmem
      exact unitsIn_ascending h (hm p hmem) (hbits p hmem) (hp p hmem)
    · apply List.Pairwise.imp_of_mem _ horder
      intro p q hp' hq' hpq a ha b hb
      have hina := (IPNet.inside_iff a p).mp ((hmem p hp' a).mp ha).2.2
      have hinb := (IPNet.inside_iff b q).mp ((hmem q hq' b).mp hb).2.2
      have := a.size_pos
      simp only [IPNet.Before] at hpq
      omega
  · intro b
    simp only [unitsOf, List.mem_flatMap]
    constructor
    · rintro ⟨p, hp', hb⟩
      obtain ⟨hcanonical, hones, hinside⟩ := (hmem p hp' b).mp hb
      exact ⟨hcanonical, hones, p, hp', hinside⟩
    · rintro ⟨hcanonical, hones, p, hp', hinside⟩
      exact ⟨p, hp', (hmem p hp' b).mpr ⟨hcanonical, hones, hinside⟩⟩

end

theorem cidrsOverlap_iff {a b : IPNet} (ha : ¬ a.MeetsMapped) (hb : ¬ b.MeetsMapped) :
    cidrsOverlap a b = true ↔ ¬ a.Apart b := by
  constructor
  · intro h hapart
    simp only [cidrsOverlap, Bool.and_eq_true, Bool.or_eq_true, (IPNet.regular_of_unmapped ha).contains_iff,
      (IPNet.regular_of_unmapped hb).contains_iff, IPNet.shortest_of_unmapped ha,
      IPNet.shortest_of_unmapped hb] at h
    rcases h.2 with h | h
    · exact hapart _ _ ((IPNet.holds_iff_mem ha _ _).mpr h) b.holds_self
    · exact hapart _ _ a.holds_self ((IPNet.holds_iff_mem hb _ _).mpr h)
  · intro h
    simp only [IPNet.Apart, not_forall, not_not] at h
    obtain ⟨f, x, hax, hbx⟩ := h
    obtain ⟨hbits, hax'⟩ := (IPNet.holds_iff_mem ha f x).mp hax
    obtain ⟨hbits', hbx'⟩ := (IPNet.holds_iff_mem hb f x).mp hbx
    apply IPNet.cidrsOverlap_of_mem _ hax' hbx'
    rw [sameFamily_iff, IPNet.shortest_of_unmapped ha, IPNet.shortest_of_unmapped hb, hbits, hbits']

def OneFamily (parents : List IPNet) : Prop :=
  ∀ p ∈ parents, ∀ q ∈ parents, p.bits = q.bits

theorem before_of_neighbours {ps : List IPNet} (hm : ∀ p ∈ ps, ¬ p.MeetsMapped) (hfam : OneFamily ps)
    (hsorted : ps.Pairwise fun p q => p.base ≤ q.base) (hover : adjacentOverlap ps = false) :
    ps.Pairwise IPNet.Before := by
  have hchain : List.IsChain IPNet.Before ps := by
    induction ps with
    | nil => exact List.IsChain.nil
    | cons p rest ih =>
      cases rest with
      | nil => exact List.IsChain.singleton p
      | cons q rest =>
        simp only [adjacentOverlap, Bool.or_eq_false_iff] at hover
        obtain ⟨hle, hsorted'⟩ := List.pairwise_cons.mp hsorted
        have hfam' : OneFamily (q :: rest) := fun a ha b hb =>
          hfam a (List.mem_cons_of_mem _ ha) b (List.mem_cons_of_mem _ hb)
        have hm' : ∀ a ∈ q :: rest, ¬ a.MeetsMapped := fun a ha => hm a (List.mem_cons_of_mem _ ha)
        apply List.IsChain.cons_cons _ (ih hm' hfam' hsorted' hover.2)
        have hapart : p.Apart q := by
          by_contra hmeet
          rw [(cidrsOverlap_iff (hm p List.mem_cons_self) (hm' q List.mem_cons_self)).mpr hmeet] at hover
          cases hover.1
        have hbits := hfam p List.mem_cons_self q (List.mem_cons_of_mem _ List.mem_cons_self)
        have hstart := hle q List.mem_cons_self
        have := q.size_pos
        rcases (IPNet.apart_iff p q).mp hapart hbits with h | h
        · exact h
        · omega
  exact List.isChain_iff_pairwise.mp hchain

theorem not_pairwise_of_adjacentOverlap {ps : List IPNet} (hm : ∀ p ∈ ps, ¬ p.MeetsMapped)
    (hover : adjacentOverlap ps = true) : ¬ ps.Pairwise IPNet.Apart := by
  intro hapart
  induction ps with
  | nil => cases hover
  | cons p rest ih =>
    cases rest with
    | nil => cases hover
    | cons q rest =>
      obtain ⟨hp, hrest⟩ := List.pairwise_cons.mp hapart
      obtain ⟨hpm, hm'⟩ := List.forall_mem_cons.mp hm
      simp only [adjacentOverlap, Bool.or_eq_true] at hover
      rcases hover with hover | hover
      · exact (cidrsOverlap_iff hpm (hm' q List.mem_cons_self)).mp hover (hp q List.mem_cons_self)
      · exact ih hm' hover hrest

theorem sameFamily_of_unmapped {a b : IPNet} (ha : ¬ a.MeetsMapped) (hb : ¬ b.MeetsMapped) :
    sameFamily a.ip b.ip = true ↔ a.bits = b.bits := by
  rw [sameFamily_iff, IPNet.shortest_of_unmapped ha, IPNet.shortest_of_unmapped hb]

theorem oneFamily_cons_iff {first : IPNet} {rest : List IPNet} (hm : ∀ p ∈ first :: rest, ¬ p.MeetsMapped) :
    (rest.any fun p => p.bits ≠ first.bits || !sameFamily first.ip p.ip) = false ↔ OneFamily (first :: rest) := by
  have hcheck : (rest.any fun p => p.bits ≠ first.bits || !sameFamily first.ip p.ip) = false ↔
      ∀ p ∈ rest, p.bits = first.bits := by
    simp only [List.any_eq_false, Bool.or_eq_true, decide_eq_true_eq, Bool.not_eq_true', not_or, not_not,
      Bool.not_eq_false]
    constructor
    · intro h p hp
      exact (h p hp).1
    · intro h p hp
      have hsame := (sameFamily_of_unmapped (hm first List.mem_cons_self) (hm p (List.mem_cons_of_mem _ hp))).mpr
      exact ⟨h p hp, hsame (h p hp).symm⟩
  rw [hcheck]
  constructor
  · intro h
    have hall : ∀ p ∈ first :: rest, p.bits = first.bits := List.forall_mem_cons.mpr ⟨rfl, h⟩
    exact fun p hp q hq => (hall p hp).trans (hall q hq).symm
  · intro h p hp
    exact h p (List.mem_cons_of_mem _ hp) first List.mem_cons_self

theorem sorted_before {parents : List IPNet} (hm : ∀ p ∈ parents, ¬ p.MeetsMapped) :
    (parents.insertionSort fun a b => cidrFirstAddr a ≤ cidrFirstAddr b).Pairwise
      fun p q => p.base ≤ q.base := by
  have : Std.Total (fun a b : IPNet => cidrFirstAddr a ≤ cidrFirstAddr b) := ⟨fun a b => le_total _ _⟩
  have : IsTrans IPNet (fun a b => cidrFirstAddr a ≤ cidrFirstAddr b) := ⟨fun a b c => le_trans⟩
  apply List.Pairwise.imp_of_mem _ (List.pairwise_insertionSort _ parents)
  intro p q hp hq hle
  rw [List.mem_insertionSort] at hp hq
  rwa [IPNet.cidrFirstAddr_of_unmapped (hm p hp), IPNet.cidrFirstAddr_of_unmapped (hm q hq)] at hle

theorem sortedDisjointParents_ok {parents : List IPNet} (hne : parents ≠ [])
    (hm : ∀ p ∈ parents, ¬ p.MeetsMapped) (hfam : OneFamily parents) (hapart : parents.Pairwise IPNet.Apart) :
    ∃ sorted bits, sortedDisjointParents parents = .ok (sorted, bits) ∧ sorted.Perm parents ∧
      sorted.Pairwise IPNet.Before ∧ ∀ p ∈ parents, p.bits = bits := by
  obtain ⟨sorted, hsorted⟩ : ∃ sorted, parents.insertionSort
    (fun a b => cidrFirstAddr a ≤ cidrFirstAddr b) = sorted := ⟨_, rfl⟩
  have hperm : sorted.Perm parents := hsorted ▸ List.perm_insertionSort _ _
  have hm' : ∀ p ∈ sorted, ¬ p.MeetsMapped := fun p hp => hm p (hperm.mem_iff.mp hp)
  have hfam' : OneFamily sorted := fun p hp q hq => hfam p (hperm.mem_iff.mp hp) q (hperm.mem_iff.mp hq)
  have hover : adjacentOverlap sorted = false := by
    by_contra h
    rw [Bool.not_eq_false] at h
    exact not_pairwise_of_adjacentOverlap hm' h ((hperm.pairwise_iff IPNet.Apart.symm).mpr hapart)
  have horder := before_of_neighbours hm' hfam' (hsorted ▸ sorted_before hm) hover
  cases parents with
  | nil => exact absurd rfl hne
  | cons first rest =>
    refine ⟨sorted, first.bits, ?_, hperm, horder, fun p hp => hfam p hp first List.mem_cons_self⟩
    simp only [sortedDisjointParents, (oneFamily_cons_iff hm).mpr hfam, Bool.false_eq_true, if_false, hsorted, hover]

theorem sortedDisjointParents_error {parents : List IPNet} (hm : ∀ p ∈ parents, ¬ p.MeetsMapped)
    (h : ¬ (OneFamily parents ∧ parents.Pairwise IPNet.Apart)) :
    sortedDisjointParents parents = .error .invalidReservation := by
  cases parents with
  | nil => rfl
  | cons first rest =>
    simp only [sortedDisjointParents]
    split
    · rfl
    · rename_i hcheck
      have hfam := (oneFamily_cons_iff hm).mp (Bool.eq_false_iff.mpr hcheck)
      split
      · rfl
      · rename_i hover
        -- sorted neighbours that keep clear would make all of them keep clear
        have hperm := List.perm_insertionSort (fun a b => cidrFirstAddr a ≤ cidrFirstAddr b) (first :: rest)
        have hm' : ∀ p ∈ List.insertionSort _ (first :: rest), ¬ p.MeetsMapped :=
          fun p hp => hm p (hperm.mem_iff.mp hp)
        have hfam' : OneFamily (List.insertionSort _ (first :: rest)) :=
          fun p hp q hq => hfam p (hperm.mem_iff.mp hp) q (hperm.mem_iff.mp hq)
        have horder := before_of_neighbours hm' hfam' (sorted_before hm) (Bool.eq_false_iff.mpr hover)
        have hapart := horder.imp fun {p q} hpq => (IPNet.apart_iff p q).mpr fun _ => Or.inl hpq
        exact absurd ⟨hfam, (hperm.pairwise_iff IPNet.Apart.symm).mp hapart⟩ h

def Misfit (parents : List IPNet) (leading trailing unitPrefixLen : ℤ) : Prop :=
  leading < 0 ∨ trailing < 0 ∨ ¬ OneFamily parents ∨ ¬ parents.Pairwise IPNet.Apart ∨
    ∃ p ∈ parents, unitPrefixLen < p.ones ∨ (p.bits.bits : ℤ) < unitPrefixLen

theorem Misfit.of_perm {parents qs : List IPNet} {leading trailing unitPrefixLen : ℤ} (hperm : parents.Perm qs)
    (h : Misfit parents leading trailing unitPrefixLen) : Misfit qs leading trailing unitPrefixLen := by
  simp only [Misfit, OneFamily, hperm.mem_iff, hperm.pairwise_iff IPNet.Apart.symm] at h
  exact h

section

variable {parents : List IPNet} {leading trailing unitPrefixLen : ℤ} (hm : ∀ p ∈ parents, ¬ p.MeetsMapped)
  (hne : parents ≠ []) (hsome : ¬ (leading = 0 ∧ trailing = 0))

include hm hne hsome

theorem reservedBlocks_misfit (h : Misfit parents leading trailing unitPrefixLen) :
    reservedBlocks parents leading trailing unitPrefixLen = .error .invalidReservation := by
  simp only [reservedBlocks]
  split
  · rfl
  rename_i hneg
  by_cases hparents : OneFamily parents ∧ parents.Pairwise IPNet.Apart
  · obtain ⟨sorted, bits, hsorted, hperm, -, hbits⟩ := sortedDisjointParents_ok hne hm hparents.1 hparents.2
    obtain ⟨p, hp, hunit⟩ : ∃ p ∈ parents, unitPrefixLen < p.ones ∨ (p.bits.bits : ℤ) < unitPrefixLen := by
      rcases h with h | h | h | h | h
      · exact absurd (Or.inl h) hneg
      · exact absurd (Or.inr h) hneg
      · exact absurd hparents.1 h
      · exact absurd hparents.2 h
      · exact h
    simp only [hsorted]
    split
    · rfl
    · rename_i hle
      rw [if_pos]
      apply List.any_eq_true.mpr
      refine ⟨p, hperm.mem_iff.mpr hp, decide_eq_true ?_⟩
      rcases hunit with hunit | hunit
      · exact hunit
      · rw [hbits p hp] at hunit
        exact absurd hunit hle
  · rw [sortedDisjointParents_error hm hparents]

theorem reservedBlocks_fit (h : ¬ Misfit parents leading trailing unitPrefixLen) :
    ∃ us, Numbering unitPrefixLen.toNat parents us ∧
      reservedBlocks parents leading trailing unitPrefixLen =
        if (us.length : ℤ) < leading + trailing then .error .reservationTooLarge
        else .ok (us.take leading.toNat ++ us.drop (us.length - trailing.toNat)) := by
  simp only [Misfit, not_or, not_not, not_exists, not_and] at h
  obtain ⟨hlead, htrail, hfam, hapart, hunit⟩ := h
  obtain ⟨sorted, bits, hsorted, hperm, horder, hbits⟩ := sortedDisjointParents_ok hne hm hfam hapart
  have hmem : ∀ p ∈ sorted, p ∈ parents := fun p hp => hperm.mem_iff.mp hp
  obtain ⟨p₀, hp₀⟩ := List.exists_mem_of_ne_nil parents hne
  have hwide : ¬ (bits.bits : ℤ) < unitPrefixLen := hbits p₀ hp₀ ▸ (hunit p₀ hp₀).2
  have hu : unitPrefixLen.toNat ≤ bits.bits := by omega
  have hones : ∀ p ∈ sorted, p.ones ≤ unitPrefixLen.toNat := by
    intro p hp
    have := (hunit p (hmem p hp)).1
    omega
  have hcheck : (sorted.any fun p => decide (unitPrefixLen < p.ones)) = false := by
    apply List.any_eq_false.mpr
    intro p hp
    simpa using (hunit p (hmem p hp)).1
  have hbits' : ∀ p ∈ sorted, p.bits = bits := fun p hp => hbits p (hmem p hp)
  have hnumber := unitsOf_numbering hu (fun p hp => hm p (hmem p hp)) hbits' hones horder
  refine ⟨unitsOf bits unitPrefixLen.toNat hu sorted, ⟨hnumber.ascending, ?_⟩, ?_⟩
  · intro b
    rw [hnumber.mem]
    simp only [hperm.mem_iff]
  · have htotal : (sorted.map fun p => (2 : ℤ) ^ (unitPrefixLen.toNat - p.ones)).sum =
        ((unitsOf bits unitPrefixLen.toNat hu sorted).length : ℤ) := by
      rw [length_unitsOf, Nat.cast_list_sum, List.map_map]
      congr 1
    simp only [reservedBlocks]
    rw [if_neg (by omega), if_neg hsome, if_neg hne, hsorted]
    simp only [dif_neg hwide, hcheck, Bool.false_eq_true, if_false, htotal, leadingUnits_eq_take,
      trailingUnits_eq_drop hu hbits' hones]

end

theorem Ascending.ends {us : List IPNet} (h : Ascending us) {m n : ℕ} (hle : m + n ≤ us.length) :
    Ascending (us.take m ++ us.drop (us.length - n)) := by
  have hsub : (us.take m ++ us.drop (us.length - n)).Sublist us := by
    conv_rhs => rw [← List.take_append_drop m us]
    apply List.Sublist.append_left
    have hdrop : us.drop (us.length - n) = (us.drop m).drop (us.length - n - m) := by
      rw [List.drop_drop]
      congr 1
      omega
    rw [hdrop]
    exact List.drop_sublist _ _
  exact h.sublist hsub

theorem Ascending.apart {us : List IPNet} (h : Ascending us) {unit : ℕ}
    (hunits : ∀ b ∈ us, b.ones = unit) : us.Pairwise IPNet.Apart := by
  apply List.Pairwise.imp_of_mem _ h
  intro a b ha hb hlt
  apply (IPNet.apart_iff a b).mpr
  intro hbits
  have hsize : a.size = b.size := by
    simp only [IPNet.size, hunits a ha, hunits b hb, hbits]
  left
  exact Dyadic.add_le_of_lt a.size_dvd_base (hsize ▸ b.size_dvd_base) hlt

theorem reservedBlocks_perm {parents qs : List IPNet} {leading trailing unitPrefixLen : ℤ}
    (hm : ∀ p ∈ parents, ¬ p.MeetsMapped) (hperm : qs.Perm parents) :
    reservedBlocks qs leading trailing unitPrefixLen = reservedBlocks parents leading trailing unitPrefixLen := by
  have hm' : ∀ p ∈ qs, ¬ p.MeetsMapped := fun p hp => hm p (hperm.mem_iff.mp hp)
  by_cases hne : parents = []
  · subst hne
    rw [List.perm_nil.mp hperm]
  · have hne' : qs ≠ [] := fun h => hne (List.nil_perm.mp (h ▸ hperm))
    by_cases hsome : leading = 0 ∧ trailing = 0
    · obtain ⟨rfl, rfl⟩ := hsome
      rfl
    · by_cases hmisfit : Misfit parents leading trailing unitPrefixLen
      · rw [reservedBlocks_misfit hm hne hsome hmisfit,
          reservedBlocks_misfit hm' hne' hsome (hmisfit.of_perm hperm.symm)]
      · have hmisfit' : ¬ Misfit qs leading trailing unitPrefixLen := fun h => hmisfit (h.of_perm hperm)
        obtain ⟨us, hus, hresult⟩ := reservedBlocks_fit hm hne hsome hmisfit
        obtain ⟨vs, hvs, hresult'⟩ := reservedBlocks_fit hm' hne' hsome hmisfit'
        obtain rfl := hus.unique hvs fun p => hperm.symm.mem_iff
        rw [hresult, hresult']

/-- The reserved blocks are the edge units of the parents. Reserving nothing checks nothing, and a pool without
ranges has no edges. -/
theorem reservedBlocks_edges (parents : List IPNet) (leading trailing unitPrefixLen : ℤ)
    (hm : ∀ p ∈ parents, ¬ p.MeetsMapped) :
    (leading = 0 ∧ trailing = 0 → reservedBlocks parents leading trailing unitPrefixLen = .ok []) ∧
    (parents = [] → 0 ≤ leading → 0 ≤ trailing → ¬ (leading = 0 ∧ trailing = 0) →
      reservedBlocks parents leading trailing unitPrefixLen = .error .noParent) ∧
    (parents = [] → leading < 0 ∨ trailing < 0 →
      reservedBlocks parents leading trailing unitPrefixLen = .error .invalidReservation) ∧
    (parents ≠ [] → ¬ (leading = 0 ∧ trailing = 0) →
      (∀ bs, reservedBlocks parents leading trailing unitPrefixLen = .ok bs →
        OneFamily parents ∧ parents.Pairwise IPNet.Apart ∧ (∀ p ∈ parents, p.ones ≤ unitPrefixLen) ∧
        ∃ us, Numbering unitPrefixLen.toNat parents us ∧ leading + trailing ≤ us.length ∧
          bs = us.take leading.toNat ++ us.drop (us.length - trailing.toNat) ∧
          Ascending bs ∧ bs.Pairwise IPNet.Apart) ∧
      (reservedBlocks parents leading trailing unitPrefixLen = .error .invalidReservation ↔
        Misfit parents leading trailing unitPrefixLen) ∧
      (reservedBlocks parents leading trailing unitPrefixLen = .error .reservationTooLarge ↔
        ¬ Misfit parents leading trailing unitPrefixLen ∧
          ∃ us, Numbering unitPrefixLen.toNat parents us ∧ (us.length : ℤ) < leading + trailing)) ∧
    ∀ qs, qs.Perm parents → reservedBlocks qs leading trailing unitPrefixLen =
      reservedBlocks parents leading trailing unitPrefixLen := by
  refine ⟨?_, ?_, ?_, ?_, ?_⟩
  · rintro ⟨rfl, rfl⟩
    rfl
  · rintro rfl hlead htrail hsome
    simp only [reservedBlocks]
    rw [if_neg (by omega), if_neg hsome, if_pos trivial]
  · rintro rfl hnegative
    simp only [reservedBlocks]
    rw [if_pos hnegative]
  · intro hne hsome
    by_cases hmisfit : Misfit parents leading trailing unitPrefixLen
    · simp [reservedBlocks_misfit hm hne hsome hmisfit, hmisfit]
    · obtain ⟨us, hnumber, hresult⟩ := reservedBlocks_fit hm hne hsome hmisfit
      simp only [hresult, hmisfit, iff_false, not_false_eq_true, true_and]
      refine ⟨?_, ?_, ?_⟩
      · intro bs hbs
        split at hbs
        · cases hbs
        rename_i hlarge
        obtain rfl := Except.ok.inj hbs
        simp only [Misfit, not_or, not_not, not_exists, not_and, not_lt] at hmisfit
        obtain ⟨hlead, htrail, hfam, hapart, hunit⟩ := hmisfit
        have hends := hnumber.ascending.ends (m := leading.toNat) (n := trailing.toNat) (by omega)
        refine ⟨hfam, hapart, fun p hp => (hunit p hp).1, us, hnumber, by omega, rfl, hends, ?_⟩
        apply hends.apart
        intro b hb
        have hmem : b ∈ us := by
          rcases List.mem_append.mp hb with hb | hb
          · exact List.mem_of_mem_take hb
          · exact List.mem_of_mem_drop hb
        exact ((hnumber.mem b).mp hmem).2.1
      · split <;> simp
      · constructor
        · intro hlarge
          split at hlarge
          · exact ⟨us, hnumber, ‹_›⟩
          · cases hlarge
        · rintro ⟨vs, hvs, hlarge⟩
          obtain rfl := hnumber.unique hvs fun _ => Iff.rfl
          rw [if_pos hlarge]
  · intro qs hperm
    exact reservedBlocks_perm hm hperm

theorem reservedBlocks_edges_tenNet :
    reservedBlocks [tenNet 8 30, tenNet 0 30] 1 2 32 = .ok [tenNet 0 32, tenNet 10 32, tenNet 11 32] ∧
      ∃ us, Numbering 32 [tenNet 8 30, tenNet 0 30] us ∧ (1 : ℤ) + 2 ≤ us.length ∧
        [tenNet 0 32, tenNet 10 32, tenNet 11 32] = us.take 1 ++ us.drop (us.length - 2) := by
  have hok : reservedBlocks [tenNet 8 30, tenNet 0 30] 1 2 32 =
      .ok [tenNet 0 32, tenNet 10 32, tenNet 11 32] := by decide
  have h := (reservedBlocks_edges [tenNet 8 30, tenNet 0 30] 1 2 32 (by decide)).2.2.2.1 (by simp) (by decide)
  obtain ⟨-, -, -, us, hnumber, hle, hbs, -⟩ := h.1 _ hok
  exact ⟨hok, us, hnumber, hle, hbs⟩

theorem reservedBlocks_zero_overlapping :
    ¬ [tenNet 0 24, tenNet 0 25].Pairwise IPNet.Apart ∧
      reservedBlocks [tenNet 0 24, tenNet 0 25] 0 0 28 = .ok [] ∧
      reservedBlocks [] 1 0 28 = .error .noParent := by
  decide

end Ipam.Allocation
