import Ipam.Database.Statements

namespace Ipam.Database

open Allocation

theorem networkCmp_family_ne {f g : Family} (h : f ≠ g) (a l b m : ℕ) :
    networkCmp f a l g b m = compare (Family.rank f) (Family.rank g) :=
  if_neg h

theorem networkCmp_self_family (f : Family) (a l b m : ℕ) :
    networkCmp f a l f b m =
      (compare (a / blockSize (min l m) f.bits) (b / blockSize (min l m) f.bits)).then
        ((compare l m).then (compare a b)) :=
  if_pos rfl

def position (c : Cidr) : ℕ ×ₗ (ℕ ×ₗ ℕ) :=
  toLex (Family.rank c.family, toLex (c.addr, c.len))

theorem position_le_iff {c d : Cidr} (hf : c.family = d.family) :
    position c ≤ position d ↔ c.addr < d.addr ∨ c.addr = d.addr ∧ c.len ≤ d.len := by
  simp [position, Prod.Lex.toLex_le_toLex, hf]

theorem rank_ne {f g : Family} (h : f ≠ g) : Family.rank f ≠ Family.rank g := by
  cases f <;> cases g <;> simp_all [Family.rank]

theorem networkCmp_ne_gt_iff (c d : Cidr) :
    networkCmp c.family c.addr c.len d.family d.addr d.len ≠ .gt ↔ position c ≤ position d := by
  by_cases hf : c.family = d.family
  · rw [position_le_iff hf, ← hf, networkCmp_self_family]
    rcases lt_or_ge d.len c.len with hl | hl
    · have hsize : blockSize d.len c.family.bits = d.size := by rw [hf]; rfl
      have hcmp := Dyadic.compare_div (x := c.addr) d.size_pos d.size_dvd
      rw [min_eq_right hl.le, hsize, ← Nat.compare_swap, hcmp]
      split
      · simp [Ordering.then, *]
      · rw [compare_gt_iff_gt.mpr hl]
        split
        · simp [Ordering.then]
          omega
        · simp [Ordering.then]
          omega
    · have hcmp := Dyadic.compare_div (x := d.addr) c.size_pos c.size_dvd
      have hsize : blockSize c.len c.family.bits = c.size := rfl
      rw [min_eq_left hl, hsize, hcmp]
      split
      · simp [Ordering.then]
        omega
      · split
        · rcases lt_or_eq_of_le hl with hl | hl
          · rw [compare_lt_iff_lt.mpr hl]
            simp [Ordering.then]
            omega
          · rw [compare_eq_iff_eq.mpr hl]
            have hle : c.addr ≤ d.addr := not_lt.mp ‹_›
            simp only [Ordering.then, ne_eq, compare_gt_iff_gt, not_lt, hle, hl, le_refl, and_true, true_iff]
            exact lt_or_eq_of_le hle
        · simp [Ordering.then]
          have := c.size_pos
          omega
  · rw [networkCmp_family_ne hf]
    have hr := rank_ne hf
    rcases lt_or_gt_of_ne hr with h | h
    · simp [position, Prod.Lex.toLex_le_toLex, h, compare_lt_iff_lt.mpr h]
    · simp [position, Prod.Lex.toLex_le_toLex, h.not_gt, hr, compare_gt_iff_gt.mpr h]

theorem sortCidrs_sorted (cs : List Cidr) : (sortCidrs cs).Pairwise fun c d => position c ≤ position d := by
  have htotal : Std.Total fun c d : Cidr => networkCmp c.family c.addr c.len d.family d.addr d.len ≠ .gt := by
    constructor
    intro c d
    rw [networkCmp_ne_gt_iff, networkCmp_ne_gt_iff]
    exact le_total _ _
  have htrans : IsTrans Cidr fun c d => networkCmp c.family c.addr c.len d.family d.addr d.len ≠ .gt := by
    constructor
    intro c d e hcd hde
    rw [networkCmp_ne_gt_iff] at hcd hde ⊢
    exact hcd.trans hde
  apply (List.pairwise_insertionSort _ cs).imp
  intro c d h
  exact (networkCmp_ne_gt_iff c d).mp h

theorem mem_sortCidrs {c : Cidr} {cs : List Cidr} : c ∈ sortCidrs cs ↔ c ∈ cs :=
  List.mem_insertionSort _

theorem networkCmp_host_ne_lt_iff (c : Cidr) (x : ℕ) :
    networkCmp c.family c.addr c.len c.family x c.family.bits ≠ .lt ↔
      x < c.addr ∨ x = c.addr ∧ c.len = c.family.bits := by
  have hcmp := Dyadic.compare_div (x := x) c.size_pos c.size_dvd
  have hsize : blockSize c.len c.family.bits = c.size := rfl
  have hpos := c.size_pos
  rw [networkCmp_self_family, min_eq_left c.len_le, hsize, hcmp]
  split
  · simp [Ordering.then, *]
  · split
    · rcases lt_or_eq_of_le c.len_le with hl | hl
      · rw [compare_lt_iff_lt.mpr hl]
        simp [Ordering.then]
        omega
      · have hone : c.size = 1 := by
          rw [← hsize, hl]
          simp [blockSize]
        obtain rfl : x = c.addr := by omega
        simp [Ordering.then, hl]
    · simp [Ordering.then]
      omega

theorem mem_coveringBlocks {cs : List Cidr} {start : IP} {parent c : Cidr} :
    c ∈ coveringBlocks cs start parent ↔ c ∈ cs ∧ c.Mem start.family start.addr ∧ c.within parent = true := by
  simp [coveringBlocks, mem_sortCidrs]

theorem blocksFrom_eq_take (cs : List Cidr) (start : IP) (parent : Cidr) (limit : ℕ) :
    ∃ all : List Cidr, blocksFrom cs start parent limit = all.take limit ∧
      all.Pairwise (fun c d => position c ≤ position d) ∧
      ∀ c, c ∈ all ↔ c ∈ cs ∧ c.within parent = true ∧
        networkCmp c.family c.addr c.len start.family start.addr start.family.bits ≠ .lt := by
  refine ⟨_, rfl, sortCidrs_sorted _, ?_⟩
  intro c
  simp [mem_sortCidrs, and_comm]

end Ipam.Database
