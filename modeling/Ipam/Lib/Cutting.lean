import Mathlib.Data.List.DropRight

namespace Cutting

variable {α : Type}

section

variable [DecidableEq α] {sep : α} {l before after : List α}

def cut (sep : α) : List α → Option (List α × List α)
  | [] => none
  | a :: l => if a = sep then some ([], l) else (cut sep l).map (Prod.map (List.cons a) id)

theorem cut_append (h : sep ∉ before) : cut sep (before ++ sep :: after) = some (before, after) := by
  induction before with
  | nil => simp [cut]
  | cons a before ih =>
    rw [List.mem_cons, not_or] at h
    simp [cut, Ne.symm h.1, ih h.2]

theorem cut_eq_some (h : cut sep l = some (before, after)) : sep ∉ before ∧ l = before ++ sep :: after := by
  induction l generalizing before with
  | nil => cases h
  | cons a l ih =>
    by_cases ha : a = sep
    · simp only [cut, if_pos ha, Option.some.injEq, Prod.mk.injEq] at h
      obtain ⟨rfl, rfl⟩ := h
      exact ⟨List.not_mem_nil, by rw [ha]; rfl⟩
    · simp only [cut, if_neg ha, Option.map_eq_some_iff] at h
      obtain ⟨⟨b, r⟩, hcut, heq⟩ := h
      obtain ⟨rfl, rfl⟩ := Prod.mk.inj heq
      obtain ⟨hnot, rfl⟩ := ih hcut
      exact ⟨by simp [Ne.symm ha, hnot], rfl⟩

end

section

variable {p : α → Bool} {l : List α}

def trim (p : α → Bool) (l : List α) : List α :=
  (l.dropWhile p).rdropWhile p

structure Trimmed (p : α → Bool) (l : List α) : Prop where
  head : ∀ a ∈ l.head?, p a = false
  last : ∀ a ∈ l.getLast?, p a = false

theorem trim_subset (p : α → Bool) (l : List α) : trim p l ⊆ l :=
  ((List.rdropWhile_prefix p _).sublist.trans (List.dropWhile_sublist p)).subset

theorem trim_trimmed (p : α → Bool) (l : List α) : Trimmed p (trim p l) := by
  constructor
  · intro a ha
    obtain ⟨rest, hrest⟩ := List.rdropWhile_prefix (l := l.dropWhile p) p
    have hnot := List.head?_dropWhile_not p l
    rw [← hrest, List.head?_append_of_ne_nil _ (by rintro heq; simp [trim, heq] at ha), ← trim, ha] at hnot
    exact hnot
  · intro a ha
    obtain ⟨hne, rfl⟩ := List.mem_getLast?_eq_getLast ha
    exact Bool.eq_false_iff.mpr (List.rdropWhile_last_not p (l.dropWhile p) hne)

theorem trim_of_trimmed (h : Trimmed p l) : trim p l = l := by
  have hdrop : l.dropWhile p = l := by
    cases l with
    | nil => rfl
    | cons a l => exact List.dropWhile_cons_of_neg (by simp [h.head a rfl])
  rw [trim, hdrop, List.rdropWhile_eq_self_iff]
  intro hne
  simp [h.last _ (List.getLast_mem_getLast? hne)]

end

end Cutting
