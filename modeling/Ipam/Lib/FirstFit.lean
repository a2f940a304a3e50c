import Ipam.Lib.Dyadic

namespace Ipam.FirstFit

structure Fits (free : ℕ → Prop) (size s : ℕ) : Prop where
  dvd : size ∣ s
  isFree : ∀ x, s ≤ x → x < s + size → free x

def NoneBelow (free : ℕ → Prop) (size cursor : ℕ) : Prop :=
  ∀ s, Fits free size s → cursor ≤ s

def Answer (free : ℕ → Prop) (size : ℕ) : Option ℕ → Prop
  | some s => Fits free size s ∧ NoneBelow free size s
  | none => ∀ s, ¬ Fits free size s

section

variable {free : ℕ → Prop} {size : ℕ}

theorem Answer.unique {o p : Option ℕ} (ho : Answer free size o) (hp : Answer free size p) : o = p := by
  cases o with
  | none =>
    cases p with
    | none => rfl
    | some t => exact absurd hp.1 (ho t)
  | some s =>
    cases p with
    | none => exact absurd ho.1 (hp s)
    | some t => exact congrArg some (le_antisymm (ho.2 t hp.1) (hp.2 s ho.1))

theorem Fits.ceil_le {s cursor : ℕ} (hs : Fits free size s) (h : cursor ≤ s) : Dyadic.ceil cursor size ≤ s :=
  Dyadic.ceil_le h hs.dvd

theorem NoneBelow.max {c d : ℕ} (hc : NoneBelow free size c) (hd : NoneBelow free size d) :
    NoneBelow free size (max c d) :=
  fun s hs => max_le (hc s hs) (hd s hs)

theorem NoneBelow.of_not_free {lo : ℕ} (hpos : 0 < size) (h : ∀ x, x < lo → ¬ free x) :
    NoneBelow free size lo := by
  intro s hs
  by_contra hlt
  exact h s (not_le.mp hlt) (hs.isFree s le_rfl (Nat.lt_add_of_pos_right hpos))

theorem NoneBelow.answer_gap {cursor hi : ℕ} (hpos : 0 < size) (h : NoneBelow free size cursor)
    (hfree : ∀ x, cursor ≤ x → x ≤ hi → free x) (hfit : Dyadic.ceil cursor size + size - 1 ≤ hi) :
    Answer free size (some (Dyadic.ceil cursor size)) := by
  refine ⟨⟨Dyadic.ceil_dvd cursor size hpos, ?_⟩, fun s hs => hs.ceil_le (h s hs)⟩
  intro x hx hx'
  exact hfree x ((Dyadic.le_ceil cursor size).trans hx) (by omega)

theorem NoneBelow.skip_gap {cursor hi : ℕ} (h : NoneBelow free size cursor)
    (htaken : ¬ free (hi + 1)) (hfit : hi < Dyadic.ceil cursor size + size - 1) :
    NoneBelow free size (hi + 1) := by
  intro s hs
  have hceil := hs.ceil_le (h s hs)
  by_contra hlt
  exact htaken (hs.isFree (hi + 1) (by omega) (by omega))

theorem NoneBelow.skip_taken {cursor stop : ℕ} (hpos : 0 < size) (h : NoneBelow free size cursor)
    (htaken : ∀ x, cursor ≤ x → x ≤ stop → ¬ free x) : NoneBelow free size (stop + 1) := by
  intro s hs
  have hs' := h s hs
  by_contra hlt
  exact htaken s hs' (by omega) (hs.isFree s le_rfl (Nat.lt_add_of_pos_right hpos))

theorem NoneBelow.answer_none {cursor hi : ℕ} (hpos : 0 < size) (h : NoneBelow free size cursor)
    (htaken : ∀ x, hi < x → ¬ free x) (hfit : hi < Dyadic.ceil cursor size + size - 1) :
    Answer free size none := by
  intro s hs
  have hceil := hs.ceil_le (h s hs)
  exact htaken (s + size - 1) (by omega) (hs.isFree _ (by omega) (by omega))

end

theorem split_cases {α : Type} {a b : α} {pre post pre' post' : List α}
    (h : pre ++ a :: post = pre' ++ b :: post') : (b ∈ pre ∧ a ∈ post') ∨ (a ∈ pre' ∧ b ∈ post) ∨ a = b := by
  induction pre generalizing pre' with
  | nil =>
    cases pre' with
    | nil => exact Or.inr (Or.inr (List.cons.inj h).1)
    | cons c pre' =>
      obtain ⟨rfl, rfl⟩ := List.cons.inj h
      exact Or.inr (Or.inl ⟨List.mem_cons_self, by simp⟩)
  | cons c pre ih =>
    cases pre' with
    | nil =>
      obtain ⟨rfl, rfl⟩ := List.cons.inj h
      exact Or.inl ⟨List.mem_cons_self, by simp⟩
    | cons d pre' =>
      obtain ⟨rfl, htail⟩ := List.cons.inj h
      exact (ih htail).imp (And.imp_left (List.mem_cons_of_mem _)) (Or.imp_left (And.imp_left (List.mem_cons_of_mem _)))

end Ipam.FirstFit
