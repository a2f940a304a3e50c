import Ipam.Allocation.FindBlock
import Ipam.Allocation.Totals
import Ipam.Allocation.Units

namespace Ipam.Allocation

open FirstFit

def findFirstAvailableBlockWithReservations (parents existing : List IPNet) (prefixLen : ℤ) (s : Strategy)
    (r : Reservation) : Except Error IPNet :=
  if parents = [] then .error .noParent
  else
    match blockedSet parents existing r with
    | .error e => .error e
    | .ok blocked => findFirstAvailableBlock parents blocked prefixLen s

structure Suits (p : IPNet) (taken : List IPNet) (prefixLen : ℤ) (b : IPNet) : Prop where
  canonical : b.Canonical
  length : (b.ones : ℤ) = prefixLen
  inside : b.Inside p
  apart : ∀ c ∈ taken, b.Apart c

section

variable {p : IPNet} {taken : List IPNet}

theorem IPNet.Inside.ones_le {b : IPNet} (h : b.Inside p) : p.ones ≤ b.ones := by
  obtain ⟨hbits, hlo, hhi⟩ := (IPNet.inside_iff b p).mp h
  by_contra hlt
  have hsize : p.size < b.size := by
    have hle := p.ones_le
    simp only [IPNet.size, blockSize, hbits]
    exact Nat.pow_lt_pow_right (by omega) (by simp only [IPNet.bits]; omega)
  omega

theorem Suits.valid {prefixLen : ℤ} {b : IPNet} (h : Suits p taken prefixLen b) :
    ¬ (prefixLen < p.ones ∨ (p.bits.bits : ℤ) < prefixLen) := by
  have hones := h.inside.ones_le
  have hbits := ((IPNet.inside_iff b p).mp h.inside).1
  have hle := b.ones_le
  have hlen := h.length
  simp only [IPNet.bits] at hbits ⊢
  rw [hbits] at hle
  omega

variable (hp : ¬ p.MeetsMapped) (htaken : ∀ c ∈ taken, ¬ c.MeetsMapped) (hcounts : p.Counts taken)

include hp htaken hcounts

theorem vacant_iff {x : ℕ} : Vacant p taken x ↔ p.Holds p.bits x ∧ ¬ Held p.bits taken x := by
  simp only [Vacant, IPNet.holds_iff_mem hp, true_and]
  apply and_congr_right
  intro hx
  rw [accounted_iff_held hp htaken hcounts ((IPNet.holds_iff_mem hp _ x).mpr ⟨rfl, hx⟩)]

theorem Suits.of_fits {n start : ℕ} (hn : n ≤ p.bits.bits)
    (h : Fits (Vacant p taken) (blockSize n p.bits.bits) start) :
    Suits p taken n (makeCIDR start n p.bits hn) ∧ (makeCIDR start n p.bits hn).base = start := by
  have hpos := blockSize_pos n p.bits.bits
  have hin : ∀ x, start ≤ x → x < start + blockSize n p.bits.bits →
      p.Holds p.bits x ∧ ¬ Held p.bits taken x :=
    fun x hx hx' => (vacant_iff hp htaken hcounts).mp (h.isFree x hx hx')
  have hfirst := (hin start le_rfl (by omega)).1
  have hlast := (hin (start + blockSize n p.bits.bits - 1) (by omega) (by omega)).1
  have hlt := p.size_lt
  obtain ⟨hbase, hcanonical, hbits, hones, hsize⟩ :=
    @makeCIDR_base start n p.bits hn (hfirst.2.2.trans_le hlt) h.dvd
  refine ⟨⟨hcanonical, by rw [hones], ?_, ?_⟩, hbase⟩
  · apply (IPNet.inside_iff _ p).mpr
    rw [hbase, hsize]
    exact ⟨hbits, hfirst.2.1, by have := hlast.2.2; omega⟩
  · intro c hc f x hb hcx
    obtain ⟨hf, hx, hx'⟩ := hb
    rw [hbits] at hf
    rw [hbase] at hx hx'
    rw [hsize] at hx'
    exact (hin x hx hx').2 ⟨c, hc, hf ▸ hcx⟩

theorem Suits.fits {n : ℕ} {b : IPNet} (hn : n ≤ p.bits.bits) (h : Suits p taken n b) :
    b = makeCIDR b.base n p.bits hn ∧ Fits (Vacant p taken) (blockSize n p.bits.bits) b.base := by
  obtain ⟨hbits, hlo, hhi⟩ := (IPNet.inside_iff b p).mp h.inside
  have hones : b.ones = n := by have := h.length; omega
  have hsize : b.size = blockSize n p.bits.bits := by
    simp only [IPNet.size, hones, hbits]
  refine ⟨eq_makeCIDR h.canonical hn hones hbits, hsize ▸ b.size_dvd_base, ?_⟩
  intro x hx hx'
  rw [← hsize] at hx'
  apply (vacant_iff hp htaken hcounts).mpr
  refine ⟨⟨rfl, by omega, by omega⟩, ?_⟩
  rintro ⟨c, hc, hholds⟩
  exact h.apart c hc p.bits x ⟨hbits, hx, hx'⟩ hholds

theorem firstFitIn_suits (prefixLen : ℤ) :
    match firstFitIn p (viewParent p taken) prefixLen with
    | some f => Suits p taken prefixLen f.cidr ∧ ∀ c, Suits p taken prefixLen c → f.cidr.base ≤ c.base
    | none => ∀ c, ¬ Suits p taken prefixLen c := by
  by_cases hvalid : prefixLen < p.ones ∨ (p.bits.bits : ℤ) < prefixLen
  · have hnone : firstFitIn p (viewParent p taken) prefixLen = none := by
      simp only [firstFitIn, fitsOf, dif_pos hvalid, List.head?_nil]
    rw [hnone]
    intro c hc
    exact hc.valid hvalid
  · obtain ⟨n, rfl⟩ : ∃ n : ℕ, prefixLen = n := ⟨prefixLen.toNat, by omega⟩
    have hn : n ≤ p.bits.bits := by omega
    have hfirst : (firstFitIn p (viewParent p taken) n).map Fit.cidr =
        ((viewParent p taken).findSome? (startIn (blockSize n p.bits.bits))).map fun s =>
          makeCIDR s n p.bits hn := firstFitIn_cidr p (viewParent p taken) n hvalid
    have hanswer := @viewParent_first p taken _ (blockSize_pos n p.bits.bits)
    generalize (viewParent p taken).findSome? (startIn (blockSize n p.bits.bits)) = o at hfirst hanswer
    cases o with
    | none =>
      rw [Option.map_none, Option.map_eq_none_iff] at hfirst
      rw [hfirst]
      intro c hc
      exact hanswer c.base (hc.fits hp htaken hcounts hn).2
    | some start =>
      obtain ⟨f, hf, hcidr⟩ := Option.map_eq_some_iff.mp hfirst
      obtain ⟨hsuits, hbase⟩ := Suits.of_fits hp htaken hcounts hn hanswer.1
      simp only [hf, hcidr, hbase]
      exact ⟨hsuits, fun c hc => hanswer.2 c.base (hc.fits hp htaken hcounts hn).2⟩

theorem fitsOf_suits {prefixLen : ℤ} {f : Fit} (hf : f ∈ fitsOf p (viewParent p taken) prefixLen) :
    Suits p taken prefixLen f.cidr := by
  obtain ⟨n, hn, rfl, -, hr, hfit⟩ := mem_fitsOf hf
  obtain ⟨start, hcidr, hfits⟩ :=
    fits_of_fitIn (fun x hx => viewParent_vacant (List.mem_of_getElem? hr) hx) hfit
  rw [hcidr]
  exact (Suits.of_fits hp htaken hcounts hn hfits).1

theorem fitsOf_eq_nil {prefixLen : ℤ} (h : fitsOf p (viewParent p taken) prefixLen = []) (b : IPNet) :
    ¬ Suits p taken prefixLen b := by
  have hfirst := firstFitIn_suits hp htaken hcounts prefixLen
  simp only [firstFitIn, h, List.head?_nil] at hfirst
  exact hfirst b

end

section

variable {parents taken : List IPNet} (hparents : ∀ p ∈ parents, ¬ p.MeetsMapped)
  (htaken : ∀ c ∈ taken, ¬ c.MeetsMapped) (hcounts : ∀ p ∈ parents, p.Counts taken)

include hparents htaken hcounts

theorem findSome?_firstFitIn (prefixLen : ℤ) :
    match parents.findSome? fun p => firstFitIn p (viewParent p taken) prefixLen with
    | some f => ∃ pre p post, parents = pre ++ p :: post ∧ Suits p taken prefixLen f.cidr ∧
        (∀ q ∈ pre, ∀ c, ¬ Suits q taken prefixLen c) ∧
        ∀ c, Suits p taken prefixLen c → f.cidr.base ≤ c.base
    | none => ∀ p ∈ parents, ∀ c, ¬ Suits p taken prefixLen c := by
  induction parents with
  | nil => simp
  | cons p rest ih =>
    obtain ⟨hp, hparents'⟩ := List.forall_mem_cons.mp hparents
    obtain ⟨hown, hcounts'⟩ := List.forall_mem_cons.mp hcounts
    have hfirst := firstFitIn_suits hp htaken hown prefixLen
    have hrest := ih hparents' hcounts'
    simp only [List.findSome?_cons]
    cases hfit : firstFitIn p (viewParent p taken) prefixLen with
    | some f =>
      rw [hfit] at hfirst
      exact ⟨[], p, rest, rfl, hfirst.1, by simp, hfirst.2⟩
    | none =>
      rw [hfit] at hfirst
      cases hfound : rest.findSome? fun p => firstFitIn p (viewParent p taken) prefixLen with
      | some f =>
        rw [hfound] at hrest
        obtain ⟨pre, q, post, rfl, hsuits, hnone, hleast⟩ := hrest
        exact ⟨p :: pre, q, post, rfl, hsuits, List.forall_mem_cons.mpr ⟨hfirst, hnone⟩, hleast⟩
      | none =>
        rw [hfound] at hrest
        exact List.forall_mem_cons.mpr ⟨hfirst, hrest⟩

theorem selectBlock_suits (prefixLen : ℤ) (s : Strategy) :
    match selectBlock (viewPool parents taken) prefixLen s with
    | some c => ∃ p ∈ parents, Suits p taken prefixLen c.cidr
    | none => ∀ p ∈ parents, ∀ c, ¬ Suits p taken prefixLen c := by
  cases hselect : selectBlock (viewPool parents taken) prefixLen s with
  | some c =>
    obtain ⟨v, hv, f, hf, hcidr⟩ := selectBlock_mem hselect
    obtain ⟨p, hp, rfl⟩ := List.mem_map.mp hv
    exact ⟨p, hp, hcidr ▸ fitsOf_suits (hparents p hp) htaken (hcounts p hp) hf⟩
  | none =>
    intro p hp
    have hview : ⟨p, viewParent p taken, ((viewParent p taken).map rangeSize).sum⟩ ∈ viewPool parents taken :=
      List.mem_map.mpr ⟨p, hp, rfl⟩
    obtain ⟨i, hi, hget⟩ := List.mem_iff_getElem.mp hview
    have hnil := List.flatMap_eq_nil_iff.mp (selectBlock_none hselect)
      (_, i) (List.mem_zipIdx_iff_getElem?.mpr (List.getElem?_eq_getElem hi))
    simp only [candidatesOf, List.map_eq_nil_iff, hget] at hnil
    exact fitsOf_eq_nil (hparents p hp) htaken (hcounts p hp) hnil

theorem findFirstAvailableBlock_suits (hne : parents ≠ []) (prefixLen : ℤ) (s : Strategy) :
    (∃ b, findFirstAvailableBlock parents taken prefixLen s = .ok b ∧ ∃ p ∈ parents, Suits p taken prefixLen b) ∨
      findFirstAvailableBlock parents taken prefixLen s = .error .poolExhausted ∧
        ∀ p ∈ parents, ∀ c, ¬ Suits p taken prefixLen c := by
  simp only [findFirstAvailableBlock, if_neg hne]
  split
  · have hfirst := findSome?_firstFitIn hparents htaken hcounts prefixLen
    split
    · rename_i f hf
      rw [hf] at hfirst
      obtain ⟨pre, p, post, rfl, hsuits, -⟩ := hfirst
      exact Or.inl ⟨f.cidr, rfl, p, by simp, hsuits⟩
    · rename_i hnone
      rw [hnone] at hfirst
      exact Or.inr ⟨rfl, hfirst⟩
  · have hselect := selectBlock_suits hparents htaken hcounts prefixLen s
    split
    · rename_i c hc
      rw [hc] at hselect
      exact Or.inl ⟨c.cidr, rfl, hselect⟩
    · rename_i hnone
      rw [hnone] at hselect
      exact Or.inr ⟨rfl, hselect⟩

theorem findFirstAvailableBlock_lowest {prefixLen : ℤ} {s : Strategy} (hs : strategyOrDefault s = .firstFit)
    {b : IPNet} (h : findFirstAvailableBlock parents taken prefixLen s = .ok b) :
    ∃ pre p post, parents = pre ++ p :: post ∧ Suits p taken prefixLen b ∧
      (∀ q ∈ pre, ∀ c, ¬ Suits q taken prefixLen c) ∧ ∀ c, Suits p taken prefixLen c → b.base ≤ c.base := by
  have hfirst := findSome?_firstFitIn hparents htaken hcounts prefixLen
  simp only [findFirstAvailableBlock, hs, if_true] at h
  split at h
  · cases h
  split at h
  · rename_i f hf
    rw [hf] at hfirst
    obtain rfl := Except.ok.inj h
    exact hfirst
  · cases h

end

theorem blocksIn_zero {parents : List IPNet} {r : Reservation} (h : r.isZero = true) : r.blocksIn parents = .ok [] := by
  simp only [Reservation.isZero, Bool.and_eq_true, beq_iff_eq] at h
  simp [Reservation.blocksIn, reservedBlocks, h.1, h.2]

theorem blockedSet_eq {parents existing reserved : List IPNet} {r : Reservation}
    (h : r.blocksIn parents = .ok reserved) : blockedSet parents existing r = .ok (existing ++ reserved) := by
  simp only [blockedSet]
  split
  · rename_i hzero
    rw [blocksIn_zero hzero] at h
    obtain rfl := Except.ok.inj h
    rw [List.append_nil]
  · rw [h]
    rfl

theorem blockedSet_cases (parents existing : List IPNet) (r : Reservation) :
    (∃ reserved, r.blocksIn parents = .ok reserved ∧ blockedSet parents existing r = .ok (existing ++ reserved)) ∨
      ∃ e, r.blocksIn parents = .error e ∧ blockedSet parents existing r = .error e := by
  cases h : r.blocksIn parents with
  | ok reserved => exact Or.inl ⟨reserved, rfl, blockedSet_eq h⟩
  | error e =>
    refine Or.inr ⟨e, rfl, ?_⟩
    simp only [blockedSet]
    split
    · rename_i hzero
      rw [blocksIn_zero hzero] at h
      cases h
    · rw [h]
      rfl

theorem blocksIn_inside {parents reserved : List IPNet} {r : Reservation} (hm : ∀ p ∈ parents, ¬ p.MeetsMapped)
    (h : r.blocksIn parents = .ok reserved) :
    ∀ b ∈ reserved, (∃ p ∈ parents, b.Inside p) ∧ ∀ p ∈ parents, b.Inside p ∨ b.Apart p := by
  intro b hb
  simp only [Reservation.blocksIn] at h
  have hsome : ¬ (r.leading = 0 ∧ r.trailing = 0) := by
    rintro ⟨hlead, htrail⟩
    simp only [hlead, htrail, reservedBlocks, lt_irrefl, or_self, if_false, and_self, if_true,
      Except.ok.injEq] at h
    rw [← h] at hb
    cases hb
  have hne : parents ≠ [] := by
    rintro rfl
    simp only [reservedBlocks, if_neg hsome, if_true] at h
    split at h <;> cases h
  by_cases hmisfit : Misfit parents r.leading r.trailing r.unitPrefixLength
  · rw [reservedBlocks_misfit hm hne hsome hmisfit] at h
    cases h
  · obtain ⟨us, hnumber, hresult⟩ := reservedBlocks_fit hm hne hsome hmisfit
    rw [hresult] at h
    split at h
    · cases h
    obtain rfl := Except.ok.inj h
    have hmem : b ∈ us := by
      rcases List.mem_append.mp hb with hb | hb
      · exact List.mem_of_mem_take hb
      · exact List.mem_of_mem_drop hb
    obtain ⟨-, -, p, hp, hinside⟩ := (hnumber.mem b).mp hmem
    refine ⟨⟨p, hp, hinside⟩, ?_⟩
    intro q hq
    simp only [Misfit, not_or, not_not] at hmisfit
    by_cases hpq : p = q
    · exact Or.inl (hpq ▸ hinside)
    · have hapart : p.Apart q := hmisfit.2.2.2.1.forall hp hq hpq
      exact Or.inr (hapart.of_inside hinside)

theorem blocked_unmapped {parents existing reserved : List IPNet} {r : Reservation}
    (hparents : ∀ p ∈ parents, ¬ p.MeetsMapped) (hexisting : ∀ c ∈ existing, ¬ c.MeetsMapped)
    (h : r.blocksIn parents = .ok reserved) : ∀ c ∈ existing ++ reserved, ¬ c.MeetsMapped := by
  intro c hc
  rcases List.mem_append.mp hc with hc | hc
  · exact hexisting c hc
  · obtain ⟨⟨p, hp, hinside⟩, -⟩ := blocksIn_inside hparents h c hc
    exact not_meetsMapped_of_inside hinside (hparents p hp)

theorem blocked_settles {parents existing reserved : List IPNet} {r : Reservation}
    (hparents : ∀ p ∈ parents, ¬ p.MeetsMapped) (hset : ∀ p ∈ parents, p.Settles existing)
    (h : r.blocksIn parents = .ok reserved) : ∀ p ∈ parents, p.Settles (existing ++ reserved) := by
  intro p hp c hc
  rcases List.mem_append.mp hc with hc | hc
  · exact hset p hp c hc
  · exact (blocksIn_inside hparents h c hc).2 p hp

theorem findFirstAvailableBlockWithReservations_decides (parents existing reserved : List IPNet) (prefixLen : ℤ)
    (s : Strategy) (r : Reservation) (hparents : ∀ p ∈ parents, ¬ p.MeetsMapped)
    (hexisting : ∀ c ∈ existing, ¬ c.MeetsMapped) (hset : ∀ p ∈ parents, p.Settles existing)
    (hr : r.blocksIn parents = .ok reserved) :
    let found := findFirstAvailableBlockWithReservations parents existing prefixLen s r
    let suits := fun p b => Suits p (existing ++ reserved) prefixLen b
    (parents = [] → found = .error .noParent) ∧
    (parents ≠ [] →
      ((∃ b, found = .ok b ∧ ∃ p ∈ parents, suits p b) ∨ found = .error .poolExhausted) ∧
      (found = .error .poolExhausted ↔ ∀ p ∈ parents, ∀ b, ¬ suits p b) ∧
      (strategyOrDefault s = .firstFit → ∀ b, found = .ok b →
        ∃ pre p post, parents = pre ++ p :: post ∧ suits p b ∧ (∀ q ∈ pre, ∀ c, ¬ suits q c) ∧
          ∀ c, suits p c → b.base ≤ c.base)) := by
  intro found suits
  have htaken := blocked_unmapped hparents hexisting hr
  have hcounts : ∀ p ∈ parents, p.Counts (existing ++ reserved) :=
    fun p hp => (blocked_settles hparents hset hr p hp).counts
  constructor
  · rintro rfl
    rfl
  · intro hne
    have hfound : found = findFirstAvailableBlock parents (existing ++ reserved) prefixLen s := by
      simp only [found, findFirstAvailableBlockWithReservations, if_neg hne, blockedSet_eq hr]
    rw [hfound]
    refine ⟨?_, ?_, ?_⟩
    · rcases findFirstAvailableBlock_suits hparents htaken hcounts hne prefixLen s with h | h
      · exact Or.inl h
      · exact Or.inr h.1
    · rcases findFirstAvailableBlock_suits hparents htaken hcounts hne prefixLen s with h | h
      · obtain ⟨b, hb, p, hp, hsuits⟩ := h
        constructor
        · intro herr
          rw [hb] at herr
          cases herr
        · intro hnone
          exact absurd hsuits (hnone p hp b)
      · exact iff_of_true h.1 h.2
    · intro hs b hb
      exact findFirstAvailableBlock_lowest hparents htaken hcounts hs hb

theorem findFirstAvailableBlockWithReservations_tenNet :
    ∃ b, findFirstAvailableBlockWithReservations [tenNet 8 30, tenNet 0 30] [tenNet 10 32] 32 .firstFit ⟨32, 0, 1⟩ =
        .ok b ∧
      ∃ pre p post, [tenNet 8 30, tenNet 0 30] = pre ++ p :: post ∧
        Suits p ([tenNet 10 32] ++ [tenNet 11 32]) 32 b ∧
        (∀ q ∈ pre, ∀ c, ¬ Suits q ([tenNet 10 32] ++ [tenNet 11 32]) 32 c) ∧
        ∀ c, Suits p ([tenNet 10 32] ++ [tenNet 11 32]) 32 c → b.base ≤ c.base := by
  have h := (findFirstAvailableBlockWithReservations_decides [tenNet 8 30, tenNet 0 30] [tenNet 10 32] [tenNet 11 32]
    32 .firstFit ⟨32, 0, 1⟩ (by decide) (by decide) (by decide) (by decide)).2 (by simp)
  have hok : findFirstAvailableBlockWithReservations [tenNet 8 30, tenNet 0 30] [tenNet 10 32] 32 .firstFit ⟨32, 0, 1⟩ =
      .ok (tenNet 8 32) := by decide
  exact ⟨_, hok, h.2.2 rfl _ hok⟩

theorem findFirstAvailableBlockWithReservations_noParent :
    (∀ p ∈ ([] : List IPNet), ∀ b, ¬ Suits p [] 32 b) ∧
      findFirstAvailableBlockWithReservations [] [] 32 .firstFit ⟨0, 0, 0⟩ ≠ .error .poolExhausted := by
  exact ⟨by simp, by decide⟩

end Ipam.Allocation
