import Ipam.Allocation.Block

namespace Ipam.Allocation

structure Reservation where
  unitPrefixLength : ℤ
  leading : ℤ
  trailing : ℤ
  deriving DecidableEq, Repr

def Reservation.isZero (r : Reservation) : Bool :=
  r.leading == 0 && r.trailing == 0

def adjacentOverlap : List IPNet → Bool
  | a :: b :: rest => cidrsOverlap a b || adjacentOverlap (b :: rest)
  | _ => false

def sortedDisjointParents (parents : List IPNet) : Except Error (List IPNet × Family) :=
  match parents with
  | [] => .error .invalidReservation
  | first :: rest =>
    if rest.any fun p => p.bits ≠ first.bits || !sameFamily first.ip p.ip then .error .invalidReservation
    else
      let sorted := parents.insertionSort fun a b => cidrFirstAddr a ≤ cidrFirstAddr b
      if adjacentOverlap sorted then .error .invalidReservation else .ok (sorted, first.bits)

def leadingUnits (bits : Family) (unit : ℕ) (h : unit ≤ bits.bits) : ℕ → List IPNet → List IPNet
  | _, [] => []
  | remaining, p :: rest =>
    let take := min remaining (2 ^ (unit - p.ones))
    (List.range take).map (fun n => makeCIDR (cidrFirstAddr p + n * blockSize unit bits.bits) unit bits h) ++
      leadingUnits bits unit h (remaining - take) rest

def trailingUnits (bits : Family) (unit : ℕ) (h : unit ≤ bits.bits) : ℕ → List IPNet → List IPNet
  | _, [] => []
  | remaining, p :: rest =>
    let take := min remaining (2 ^ (unit - p.ones))
    (List.range take).map
        (fun n => makeCIDR (cidrLastAddr p + 1 - (n + 1) * blockSize unit bits.bits) unit bits h) ++
      trailingUnits bits unit h (remaining - take) rest

def reservedBlocks (parents : List IPNet) (leading trailing unitPrefixLen : ℤ) :
    Except Error (List IPNet) :=
  if leading < 0 ∨ trailing < 0 then .error .invalidReservation
  else if leading = 0 ∧ trailing = 0 then .ok []
  else if parents = [] then .error .noParent
  else
    match sortedDisjointParents parents with
    | .error e => .error e
    | .ok (sorted, bits) =>
      if h : (bits.bits : ℤ) < unitPrefixLen then .error .invalidReservation
      else if sorted.any fun p => unitPrefixLen < p.ones then .error .invalidReservation
      else
        let unit := unitPrefixLen.toNat
        let total := (sorted.map fun p => 2 ^ (unit - p.ones)).sum
        if (total : ℤ) < leading + trailing then .error .reservationTooLarge
        else
          .ok (leadingUnits bits unit (by omega) leading.toNat sorted ++
            (trailingUnits bits unit (by omega) trailing.toNat sorted.reverse).reverse)

def Reservation.blocksIn (r : Reservation) (parents : List IPNet) : Except Error (List IPNet) :=
  reservedBlocks parents r.leading r.trailing r.unitPrefixLength

def blockedSet (parents existing : List IPNet) (r : Reservation) : Except Error (List IPNet) :=
  if r.isZero then .ok existing
  else (r.blocksIn parents).map fun reserved => existing ++ reserved

def measure (parents existing : List IPNet) (r : Reservation) : Except Error PoolMeasurement :=
  (blockedSet parents existing r).map fun blocked => measureViews (viewPool parents blocked)

def consumptionDelta (parents overlapping : List IPNet) (block : IPNet) : Except Error ℕ := do
  let before ← measure parents overlapping ⟨0, 0, 0⟩
  let after ← measure parents (overlapping ++ [block]) ⟨0, 0, 0⟩
  return after.consumed - before.consumed

def addedConsumption (parents overlapping : List IPNet) (block : IPNet) : Except Error ℕ :=
  consumptionDelta parents overlapping block

def removedConsumption (parents overlapping : List IPNet) (block : IPNet) : Except Error ℕ :=
  consumptionDelta parents overlapping block

theorem blocksIn_error {r : Reservation} {parents : List IPNet} {e : Error} (h : r.blocksIn parents = .error e) :
    e ≠ .poolExhausted := by
  have hsorted : ∀ e', sortedDisjointParents parents = .error e' → e' = .invalidReservation := by
    intro e' he'
    simp only [sortedDisjointParents] at he'
    repeat' split at he'
    all_goals cases he'
    all_goals rfl
  have hcases : e = .invalidReservation ∨ e = .noParent ∨ e = .reservationTooLarge := by
    simp only [Reservation.blocksIn, reservedBlocks] at h
    split at h
    · exact .inl (Except.error.inj h).symm
    split at h
    · cases h
    split at h
    · exact .inr (.inl (Except.error.inj h).symm)
    split at h
    · rename_i e' he'
      obtain rfl := Except.error.inj h
      exact .inl (hsorted e' he')
    split at h
    · exact .inl (Except.error.inj h).symm
    split at h
    · exact .inl (Except.error.inj h).symm
    split at h
    · exact .inr (.inr (Except.error.inj h).symm)
    · cases h
  obtain rfl | rfl | rfl := hcases <;> simp

theorem unit_blockAt {p : Cidr} {unit k : ℕ} (hp : p.len ≤ unit) (hu : unit ≤ p.family.bits)
    (hk : k < 2 ^ (unit - p.len)) : BlockAt p unit (p.addr + k * blockSize unit p.family.bits) := by
  have hsize : p.size = 2 ^ (unit - p.len) * blockSize unit p.family.bits := by
    simp only [Cidr.size, blockSize, ← pow_add]
    congr 1
    omega
  have hdvd : blockSize unit p.family.bits ∣ p.addr := by
    refine Dvd.dvd.trans ?_ p.size_dvd
    rw [hsize]
    exact Dvd.intro_left _ rfl
  have hpos : 0 < blockSize unit p.family.bits := by
    simp only [blockSize]
    positivity
  have hlast : (k + 1) * blockSize unit p.family.bits ≤ p.size := by
    rw [hsize]
    exact Nat.mul_le_mul_right _ hk
  refine ⟨hp, hu, Nat.dvd_add hdvd (Dvd.intro_left _ rfl), Nat.le_add_right _ _, ?_⟩
  simp only [Cidr.last]
  rw [Nat.add_mul] at hlast
  omega

theorem leadingUnits_blockAt {p : Cidr} {unit : ℕ} (hp : p.len ≤ unit) (hu : unit ≤ p.family.bits) (m : ℕ) :
    ∀ b ∈ leadingUnits p.family unit hu m [p.net],
      ∃ start, ∃ _ : BlockAt p unit start, b = makeCIDR start unit p.family hu := by
  intro b hb
  simp only [leadingUnits, List.append_nil, List.mem_map, List.mem_range] at hb
  obtain ⟨k, hk, rfl⟩ := hb
  have hk' : k < 2 ^ (unit - p.len) := lt_of_lt_of_le hk (min_le_right _ _)
  rw [Cidr.cidrFirstAddr_net]
  exact ⟨_, unit_blockAt hp hu hk', rfl⟩

theorem trailingUnits_blockAt {p : Cidr} {unit : ℕ} (hp : p.len ≤ unit) (hu : unit ≤ p.family.bits) (m : ℕ) :
    ∀ b ∈ trailingUnits p.family unit hu m [p.net],
      ∃ start, ∃ _ : BlockAt p unit start, b = makeCIDR start unit p.family hu := by
  intro b hb
  simp only [trailingUnits, List.append_nil, List.mem_map, List.mem_range] at hb
  obtain ⟨k, hk, rfl⟩ := hb
  have hk' : k < 2 ^ (unit - p.len) := lt_of_lt_of_le hk (min_le_right _ _)
  have hsize : p.size = 2 ^ (unit - p.len) * blockSize unit p.family.bits := by
    simp only [Cidr.size, blockSize, ← pow_add]
    congr 1
    omega
  -- counted from the front, the unit is number 2 ^ (unit - len) - 1 - k
  have hstart : cidrLastAddr p.net + 1 - (k + 1) * blockSize unit p.family.bits =
      p.addr + (2 ^ (unit - p.len) - 1 - k) * blockSize unit p.family.bits := by
    have hmul : (2 ^ (unit - p.len) - 1 - k) * blockSize unit p.family.bits +
        (k + 1) * blockSize unit p.family.bits = p.size := by
      rw [← Nat.add_mul, hsize]
      congr 1
      omega
    have := p.size_pos
    rw [Cidr.cidrLastAddr_net]
    simp only [Cidr.last]
    omega
  rw [hstart]
  exact ⟨_, unit_blockAt hp hu (by omega), rfl⟩

theorem sortedDisjointParents_singleton (parent : IPNet) :
    sortedDisjointParents [parent] = .ok ([parent], parent.bits) := rfl

theorem reservedBlocks_units {p : Cidr} {leading trailing unitPrefixLen : ℤ} {bs : List IPNet}
    (h : reservedBlocks [p.net] leading trailing unitPrefixLen = .ok bs) :
    ∃ n, ∀ b ∈ bs, ∃ start, ∃ hb : BlockAt p n start, b = makeCIDR start n p.family hb.le_bits := by
  simp only [reservedBlocks, sortedDisjointParents_singleton, List.cons_ne_nil, if_false] at h
  split at h
  · cases h
  split at h
  · obtain rfl := Except.ok.inj h
    exact ⟨0, by simp⟩
  split at h
  · cases h
  rename_i hbits
  split at h
  · cases h
  rename_i hones
  split at h
  · cases h
  obtain rfl := Except.ok.inj h
  simp only [List.any_cons, List.any_nil, Bool.or_false, decide_eq_true_eq] at hones
  have hp : p.len ≤ unitPrefixLen.toNat := by
    have hlen : p.net.ones = p.len := rfl
    rw [hlen] at hones
    omega
  have hu : unitPrefixLen.toNat ≤ p.family.bits := by
    have hfam : p.net.bits = p.family := rfl
    rw [hfam] at hbits
    omega
  refine ⟨unitPrefixLen.toNat, ?_⟩
  intro b hb
  cases List.mem_append.mp hb with
  | inl hb => exact leadingUnits_blockAt hp hu _ b hb
  | inr hb => exact trailingUnits_blockAt hp hu _ b (List.mem_reverse.mp hb)

theorem reservedBlocks_blockAt {p : Cidr} {leading trailing unitPrefixLen : ℤ} {bs : List IPNet}
    (h : reservedBlocks [p.net] leading trailing unitPrefixLen = .ok bs) :
    ∀ b ∈ bs, ∃ n start, ∃ hb : BlockAt p n start, b = makeCIDR start n p.family hb.le_bits := by
  obtain ⟨n, hunits⟩ := reservedBlocks_units h
  exact fun b hb => ⟨n, hunits b hb⟩

theorem blocksIn_texts {p : Cidr} {r : Reservation} {bs : List IPNet} (hm : ¬ p.MeetsMapped)
    (h : r.blocksIn [p.net] = .ok bs) :
    ∃ n, ∀ b ∈ bs, ∃ c : Cidr, b = c.net ∧ b.string = some c ∧ c.len = n := by
  obtain ⟨n, hunits⟩ := reservedBlocks_units h
  refine ⟨n, ?_⟩
  intro b hb
  obtain ⟨start, hblock, rfl⟩ := hunits b hb
  have hmem : p.Mem p.family start := by
    have hpos : 0 < blockSize n p.family.bits := Nat.two_pow_pos _
    have hlast := hblock.le_last
    exact ⟨rfl, hblock.addr_le, by omega⟩
  have hmapped := p.not_mapped_of_not_meets hm hmem
  exact ⟨hblock.cidr hmapped, makeCIDR_eq hblock.lt, string_makeCIDR hblock hmapped, rfl⟩

end Ipam.Allocation
