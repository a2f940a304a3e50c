import Mathlib.Data.List.Basic
import Mathlib.Tactic

namespace Ipam.PrefixCode

variable {α β γ σ : Type}

def Unambiguous (enc : α → List σ) : Prop :=
  ∀ a a' rest rest', enc a ++ rest = enc a' ++ rest' → a = a' ∧ rest = rest'

namespace Unambiguous

theorem comp {enc : α → List σ} (h : Unambiguous enc) {f : β → α} (hf : Function.Injective f) :
    Unambiguous fun b => enc (f b) := by
  intro b b' rest rest' heq
  obtain ⟨hab, hrest⟩ := h _ _ _ _ heq
  exact ⟨hf hab, hrest⟩

theorem pair {enc : α → List σ} {enc' : β → List σ} (h : Unambiguous enc) (h' : Unambiguous enc') :
    Unambiguous fun x : α × β => enc x.1 ++ enc' x.2 := by
  rintro ⟨a, b⟩ ⟨a', b'⟩ rest rest' heq
  simp only [List.append_assoc] at heq
  obtain ⟨rfl, htail⟩ := h _ _ _ _ heq
  obtain ⟨rfl, hrest⟩ := h' _ _ _ _ htail
  exact ⟨rfl, hrest⟩

theorem flatMap {enc : α → List σ} (h : Unambiguous enc) {as as' : List α} {rest rest' : List σ}
    (hlen : as.length = as'.length) (heq : as.flatMap enc ++ rest = as'.flatMap enc ++ rest') :
    as = as' ∧ rest = rest' := by
  induction as generalizing as' with
  | nil =>
    obtain rfl := List.length_eq_zero_iff.mp hlen.symm
    exact ⟨rfl, heq⟩
  | cons a as ih =>
    cases as' with
    | nil => cases hlen
    | cons a' as' =>
      simp only [List.flatMap_cons, List.append_assoc] at heq
      obtain ⟨rfl, htail⟩ := h _ _ _ _ heq
      obtain ⟨rfl, hrest⟩ := ih (Nat.succ.inj hlen) htail
      exact ⟨rfl, hrest⟩

theorem counted {count : ℕ → List σ} {enc : α → List σ} (hcount : Unambiguous count) (h : Unambiguous enc) :
    Unambiguous fun as : List α => count as.length ++ as.flatMap enc := by
  intro as as' rest rest' heq
  simp only [List.append_assoc] at heq
  obtain ⟨hlen, htail⟩ := hcount _ _ _ _ heq
  exact h.flatMap hlen htail

end Unambiguous

theorem append_sep_inj {sep : σ} {u v rest rest' : List σ} (hu : sep ∉ u) (hv : sep ∉ v)
    (heq : u ++ sep :: rest = v ++ sep :: rest') : u = v ∧ rest = rest' := by
  induction u generalizing v with
  | nil =>
    cases v with
    | nil => exact ⟨rfl, (List.cons.inj heq).2⟩
    | cons y v => exact absurd (List.cons.inj heq).1 fun h => hv (h ▸ List.mem_cons_self)
  | cons x u ih =>
    cases v with
    | nil => exact absurd (List.cons.inj heq).1.symm fun h => hu (h ▸ List.mem_cons_self)
    | cons y v =>
      obtain ⟨rfl, htail⟩ := List.cons.inj heq
      obtain ⟨rfl, hrest⟩ := ih (fun h => hu (List.mem_cons_of_mem _ h)) (fun h => hv (List.mem_cons_of_mem _ h)) htail
      exact ⟨rfl, hrest⟩

theorem terminated {word : α → List σ} (hword : Function.Injective word) {sep : σ} (hsep : ∀ a, sep ∉ word a) :
    Unambiguous fun a => word a ++ [sep] := by
  intro a a' rest rest' heq
  simp only [List.append_assoc, List.singleton_append] at heq
  obtain ⟨hwords, hrest⟩ := append_sep_inj (hsep a) (hsep a') heq
  exact ⟨hword hwords, hrest⟩

theorem lengthPrefixed {count : ℕ → List σ} (hcount : Unambiguous count) :
    Unambiguous fun v : List σ => count v.length ++ v := by
  intro v v' rest rest' heq
  simp only [List.append_assoc] at heq
  obtain ⟨hlen, htail⟩ := hcount _ _ _ _ heq
  exact List.append_inj htail hlen

end Ipam.PrefixCode
