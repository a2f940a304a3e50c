import Mathlib.Tactic

namespace Ipam.Dyadic

def ceil (v s : ℕ) : ℕ :=
  if v % s = 0 then v else v + (s - v % s)

theorem ceil_dvd (v s : ℕ) (hs : 0 < s) : s ∣ ceil v s := by
  unfold ceil
  split
  · exact Nat.dvd_of_mod_eq_zero ‹_›
  · have hlt := Nat.mod_lt v hs
    have hdiv := Nat.div_add_mod v s
    refine ⟨v / s + 1, ?_⟩
    rw [Nat.mul_add]
    omega

theorem le_ceil (v s : ℕ) : v ≤ ceil v s := by
  unfold ceil
  split <;> omega

theorem ceil_le {v s w : ℕ} (hv : v ≤ w) (hw : s ∣ w) : ceil v s ≤ w := by
  unfold ceil
  split
  · exact hv
  · rename_i hmod
    have hs : 0 < s := by
      by_contra h
      obtain rfl : s = 0 := by omega
      obtain rfl : w = 0 := by simpa using hw
      exact hmod (by simp; omega)
    obtain ⟨q, rfl⟩ := hw
    have hdiv := Nat.div_add_mod v s
    have hlt := Nat.mod_lt v hs
    have hq : v / s < q := by
      by_contra h
      have := Nat.mul_le_mul_left s (not_lt.mp h)
      omega
    have := Nat.mul_le_mul_left s hq
    rw [Nat.mul_succ] at this
    omega

theorem div_eq_iff_mem {a s x : ℕ} (hs : 0 < s) (ha : s ∣ a) :
    a / s = x / s ↔ a ≤ x ∧ x < a + s := by
  obtain ⟨q, rfl⟩ := ha
  rw [Nat.mul_div_cancel_left q hs]
  constructor
  · rintro rfl
    have hdiv := Nat.div_add_mod x s
    have hlt := Nat.mod_lt x hs
    omega
  · rintro ⟨hl, hr⟩
    symm
    apply Nat.div_eq_of_lt_le
    · rwa [Nat.mul_comm]
    · rwa [Nat.mul_comm, Nat.mul_succ]

theorem div_eq_iff_floor {a s x : ℕ} (hs : 0 < s) : a / s = x / s ↔ a - a % s ≤ x ∧ x < a - a % s + s := by
  have hsplit := Nat.div_add_mod a s
  have hfloor : a - a % s = s * (a / s) := by omega
  have hdiv : (a - a % s) / s = a / s := by
    rw [hfloor, Nat.mul_div_cancel_left _ hs]
  rw [← hdiv]
  exact div_eq_iff_mem hs (Nat.dvd_sub_mod _)

theorem add_le_of_lt {a b s : ℕ} (ha : s ∣ a) (hb : s ∣ b) (h : a < b) : a + s ≤ b := by
  have hd : s ∣ b - a := Nat.dvd_sub hb ha
  have := Nat.le_of_dvd (by omega) hd
  omega

theorem sub_mod_eq {a s : ℕ} (ha : s ∣ a) : a - a % s = a := by
  rw [Nat.mod_eq_zero_of_dvd ha, Nat.sub_zero]

theorem nested_of_meet {a b s t x : ℕ} (hs : s ∣ a) (ht : t ∣ b) (hst : s ∣ t) (ha : a ≤ x) (hax : x < a + s)
    (hb : b ≤ x) (hbx : x < b + t) : b ≤ a ∧ a + s ≤ b + t := by
  have hsb : s ∣ b := hst.trans ht
  constructor
  · by_contra h
    have := add_le_of_lt hs hsb (not_le.mp h)
    omega
  · by_contra h
    have hsbt : s ∣ b + t := Nat.dvd_add hsb hst
    rcases lt_or_ge a (b + t) with hlt | hge
    · have := add_le_of_lt hs hsbt hlt
      omega
    · omega

theorem compare_div {size a x : ℕ} (hpos : 0 < size) (ha : size ∣ a) :
    compare (a / size) (x / size) = if x < a then .gt else if x < a + size then .eq else .lt := by
  split
  · rename_i h
    apply compare_gt_iff_gt.mpr
    exact (Nat.div_lt_iff_lt_mul hpos).mpr (by rwa [Nat.div_mul_cancel ha])
  · rename_i h
    split
    · rename_i h'
      exact compare_eq_iff_eq.mpr ((div_eq_iff_mem hpos ha).mpr ⟨not_lt.mp h, h'⟩)
    · rename_i h'
      apply compare_lt_iff_lt.mpr
      apply Nat.lt_of_succ_le
      rw [Nat.le_div_iff_mul_le hpos, Nat.succ_mul, Nat.div_mul_cancel ha]
      exact not_lt.mp h'

end Ipam.Dyadic
