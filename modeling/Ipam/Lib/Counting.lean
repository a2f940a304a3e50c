import Mathlib.Order.Interval.Finset.Nat
import Mathlib.Algebra.BigOperators.Intervals
import Mathlib.Tactic

namespace Ipam.Counting

def countIn (p : ℕ → Prop) [DecidablePred p] (a b : ℕ) : ℕ :=
  ((Finset.Ico a b).filter p).card

variable (p q : ℕ → Prop) [DecidablePred p] [DecidablePred q]

theorem countIn_split {a b c : ℕ} (hab : a ≤ b) (hbc : b ≤ c) :
    countIn p a c = countIn p a b + countIn p b c := by
  simp only [countIn, Finset.card_filter]
  exact (Finset.sum_Ico_consecutive _ hab hbc).symm

variable {p q}

theorem countIn_all {a b : ℕ} (h : ∀ x, a ≤ x → x < b → p x) : countIn p a b = b - a := by
  have hall : (Finset.Ico a b).filter p = Finset.Ico a b := by
    apply Finset.filter_true_of_mem
    intro x hx
    exact h x (Finset.mem_Ico.mp hx).1 (Finset.mem_Ico.mp hx).2
  rw [countIn, hall, Nat.card_Ico]

theorem countIn_none {a b : ℕ} (h : ∀ x, a ≤ x → x < b → ¬ p x) : countIn p a b = 0 := by
  have hnone : (Finset.Ico a b).filter p = ∅ := by
    apply Finset.filter_false_of_mem
    intro x hx
    exact h x (Finset.mem_Ico.mp hx).1 (Finset.mem_Ico.mp hx).2
  rw [countIn, hnone, Finset.card_empty]

theorem countIn_skip {a b : ℕ} (hab : a ≤ b) (h : ∀ x, a ≤ x → x < b → ¬ p x) (c : ℕ) :
    countIn p a c = countIn p b c := by
  rcases le_total b c with hbc | hcb
  · rw [countIn_split p hab hbc, countIn_none h, Nat.zero_add]
  · rw [countIn_none fun x hx hx' => h x hx (hx'.trans_le hcb), countIn_none fun x hx hx' => by omega]

theorem countIn_block {a b s n : ℕ} (has : a ≤ s) (hsb : s + n ≤ b)
    (h : ∀ x, a ≤ x → x < b → (p x ↔ s ≤ x ∧ x < s + n)) : countIn p a b = n := by
  have hbelow : ∀ x, a ≤ x → x < s → ¬ p x := by
    intro x hx hx' hp
    have := (h x hx (by omega)).mp hp
    omega
  have hin : ∀ x, s ≤ x → x < s + n → p x := fun x hx hx' => (h x (by omega) (by omega)).mpr ⟨hx, hx'⟩
  have habove : ∀ x, s + n ≤ x → x < b → ¬ p x := by
    intro x hx hx' hp
    have := (h x (by omega) hx').mp hp
    omega
  rw [countIn_skip has hbelow, countIn_split p (Nat.le_add_right s n) hsb, countIn_all hin, countIn_none habove]
  omega

theorem countIn_congr {a b : ℕ} (h : ∀ x, a ≤ x → x < b → (p x ↔ q x)) : countIn p a b = countIn q a b := by
  simp only [countIn]
  congr 1
  apply Finset.filter_congr
  intro x hx
  exact h x (Finset.mem_Ico.mp hx).1 (Finset.mem_Ico.mp hx).2

theorem countIn_add_not (a b : ℕ) : countIn p a b + countIn (fun x => ¬ p x) a b = b - a := by
  simp only [countIn]
  rw [Finset.card_filter_add_card_filter_not, Nat.card_Ico]

theorem countIn_or {r : ℕ → Prop} [DecidablePred r] {a b : ℕ}
    (h : ∀ x, a ≤ x → x < b → (r x ↔ p x ∨ q x)) (hdisj : ∀ x, a ≤ x → x < b → p x → ¬ q x) :
    countIn r a b = countIn p a b + countIn q a b := by
  have hor : countIn r a b = countIn (fun x => p x ∨ q x) a b := countIn_congr h
  rw [hor]
  simp only [countIn]
  rw [Finset.filter_or, Finset.card_union_of_disjoint]
  apply Finset.disjoint_filter.mpr
  intro x hx
  exact hdisj x (Finset.mem_Ico.mp hx).1 (Finset.mem_Ico.mp hx).2

end Ipam.Counting
