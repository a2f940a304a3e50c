import Mathlib.Tactic

namespace Ipam.Words

variable {α : Type} (p : α → Bool)

def flush (w : List α) : List (List α) :=
  if w.isEmpty then [] else [w]

def wordsFrom (carry : List α) : List α → List (List α)
  | [] => flush carry
  | a :: l => if p a then wordsFrom (carry ++ [a]) l else flush carry ++ wordsFrom [] l

def words (l : List α) : List (List α) :=
  wordsFrom p [] l

def IsWord (w : List α) : Prop :=
  w ≠ [] ∧ ∀ a ∈ w, p a = true

variable {p}

theorem flush_of_ne_nil {w : List α} (h : w ≠ []) : flush w = [w] := by
  simp [flush, h]

@[simp]
theorem flush_nil : flush ([] : List α) = [] := rfl

theorem isWord_of_mem_flush {w carry : List α} (hcarry : ∀ a ∈ carry, p a = true) (h : w ∈ flush carry) :
    IsWord p w := by
  by_cases hnil : carry = []
  · subst hnil
    cases h
  · rw [flush_of_ne_nil hnil, List.mem_singleton] at h
    subst h
    exact ⟨hnil, hcarry⟩

theorem isWord_of_mem_wordsFrom {carry l w : List α} (hcarry : ∀ a ∈ carry, p a = true)
    (h : w ∈ wordsFrom p carry l) : IsWord p w := by
  induction l generalizing carry with
  | nil => exact isWord_of_mem_flush hcarry h
  | cons a l ih =>
    simp only [wordsFrom] at h
    split at h
    · rename_i ha
      apply ih _ h
      intro b hb
      rcases List.mem_append.mp hb with hb | hb
      · exact hcarry b hb
      · exact List.mem_singleton.mp hb ▸ ha
    · rcases List.mem_append.mp h with h | h
      · exact isWord_of_mem_flush hcarry h
      · exact ih (by simp) h

theorem wordsFrom_append_sep {sep : α} (hsep : p sep = false) (carry l r : List α) :
    wordsFrom p carry (l ++ sep :: r) = wordsFrom p carry l ++ words p r := by
  induction l generalizing carry with
  | nil => simp [wordsFrom, hsep, words]
  | cons a l ih =>
    simp only [List.cons_append, wordsFrom]
    split
    · exact ih _
    · rw [ih, List.append_assoc]

theorem words_intercalate {sep : α} (hsep : p sep = false) (ls : List (List α)) :
    words p ([sep].intercalate ls) = ls.flatMap (words p) := by
  induction ls with
  | nil => rfl
  | cons l ls ih =>
    cases ls with
    | nil => simp
    | cons m ls =>
      rw [List.intercalate_cons_cons, List.flatMap_cons, ← ih, List.append_assoc]
      exact wordsFrom_append_sep hsep [] l _

theorem intercalate_concat (sep : List α) {ws : List (List α)} (h : ws ≠ []) (w : List α) :
    sep.intercalate (ws ++ [w]) = sep.intercalate ws ++ (sep ++ w) := by
  induction ws with
  | nil => exact absurd rfl h
  | cons v ws ih =>
    cases ws with
    | nil => simp [List.intercalate]
    | cons u ws =>
      have hstep := ih (by simp)
      rw [List.cons_append] at hstep
      rw [List.cons_append, List.cons_append, List.intercalate_cons_cons, hstep, List.intercalate_cons_cons]
      simp only [List.append_assoc]

theorem intercalate_concat_append (sep : List α) (ws : List (List α)) (w t : List α) :
    sep.intercalate (ws ++ [w]) ++ t = sep.intercalate (ws ++ [w ++ t]) := by
  by_cases h : ws = []
  · subst h
    simp [List.intercalate]
  · rw [intercalate_concat sep h, intercalate_concat sep h]
    simp only [List.append_assoc]

theorem head_intercalate (sep : List α) {ws : List (List α)} (hne : ws ≠ []) (h : ∀ w ∈ ws, IsWord p w) :
    ∃ a t, sep.intercalate ws = a :: t ∧ p a = true := by
  obtain ⟨w, rest, rfl⟩ := List.exists_cons_of_ne_nil hne
  obtain ⟨hw, hp⟩ := h w (by simp)
  obtain ⟨a, t, rfl⟩ := List.exists_cons_of_ne_nil hw
  cases rest with
  | nil => exact ⟨a, t, by simp [List.intercalate], hp a (by simp)⟩
  | cons v rest => exact ⟨a, _, by simp [List.intercalate]; rfl, hp a (by simp)⟩

theorem last_intercalate (sep : List α) {ws : List (List α)} (hne : ws ≠ []) (h : ∀ w ∈ ws, IsWord p w) :
    ∃ t a, sep.intercalate ws = t ++ [a] ∧ p a = true := by
  obtain ⟨rest, w, rfl⟩ := List.eq_nil_or_concat ws |>.resolve_left hne
  obtain ⟨hw, hp⟩ := h w (by simp)
  obtain ⟨t, a, rfl⟩ := List.eq_nil_or_concat w |>.resolve_left hw
  rw [List.concat_eq_append] at *
  refine ⟨sep.intercalate (rest ++ [t]), a, ?_, hp a (by simp)⟩
  rw [intercalate_concat_append, List.concat_eq_append]

end Ipam.Words
