import Mathlib.Data.Set.Basic
import Mathlib.Logic.Relation

namespace Ipam.Forests

open Relation

variable {α β : Type*} {up up' : α → α → Prop} {range : α → Set β} {a b c p : α}

theorem range_subset (hnested : ∀ a p, up a p → range a ⊆ range p) (h : ReflTransGen up a b) : range a ⊆ range b := by
  induction h with
  | refl => exact subset_rfl
  | tail _ hlast ih => exact ih.trans (hnested _ _ hlast)

theorem branch_kept {kept : α → Prop} (hkept : ∀ a p, kept a → up a p → up' a p ∧ kept p) (ha : kept a)
    (h : ReflTransGen up a b) : ReflTransGen up' a b ∧ kept b := by
  induction h with
  | refl => exact ⟨.refl, ha⟩
  | tail _ hlast ih =>
    obtain ⟨hpath, hb⟩ := ih
    obtain ⟨hup, hc⟩ := hkept _ _ hb hlast
    exact ⟨hpath.tail hup, hc⟩

theorem comparable (hnested : ∀ a p, up a p → range a ⊆ range p)
    (hsiblings : ∀ a b p, up a p → up b p → (range a ∩ range b).Nonempty → a = b) {ra rb : α}
    (ha : ReflTransGen up a ra) (hb : ReflTransGen up b rb) (hroots : (range ra ∩ range rb).Nonempty → ra = rb)
    (hmeet : (range a ∩ range b).Nonempty) : ReflTransGen up a b ∨ ReflTransGen up b a := by
  induction ha using ReflTransGen.head_induction_on with
  | refl =>
    obtain rfl := hroots (hmeet.mono (Set.inter_subset_inter subset_rfl (range_subset hnested hb)))
    exact .inr hb
  | @head a p hup _ ih =>
    cases ih (hmeet.mono (Set.inter_subset_inter (hnested a p hup) subset_rfl)) with
    | inl hpath => exact .inl (hpath.head hup)
    | inr hpath =>
      -- the branch of the other node enters the parent through one of its children
      obtain rfl | ⟨c, hbc, hcp⟩ := hpath.cases_tail
      · exact .inl (.single hup)
      · obtain rfl := hsiblings a c p hup hcp
          (hmeet.mono (Set.inter_subset_inter subset_rfl (range_subset hnested hbc)))
        exact .inr hbc

end Ipam.Forests
