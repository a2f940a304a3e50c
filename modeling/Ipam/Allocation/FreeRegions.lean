import Ipam.Lib.FirstFit
import Ipam.Allocation.Allocate

namespace Ipam.Allocation

open FirstFit

def IPRange.Mem (r : IPRange) (x : ℕ) : Prop :=
  r.start ≤ x ∧ x ≤ r.stop

instance (r : IPRange) (x : ℕ) : Decidable (r.Mem x) :=
  inferInstanceAs (Decidable (_ ∧ _))

def Sorted (rs : List IPRange) : Prop :=
  rs.Pairwise fun a b => a.start ≤ b.start

theorem sortByStart_sorted (rs : List IPRange) : Sorted (sortByStart rs) := by
  have : Std.Total (fun a b : IPRange => a.start ≤ b.start) := ⟨fun a b => le_total _ _⟩
  have : IsTrans IPRange (fun a b => a.start ≤ b.start) := ⟨fun a b c => le_trans⟩
  exact List.pairwise_insertionSort _ rs

theorem mem_sortByStart (r : IPRange) (rs : List IPRange) : r ∈ sortByStart rs ↔ r ∈ rs :=
  List.mem_insertionSort _

section

variable {free : ℕ → Prop} {lo hi : ℕ}

def Ahead (free : ℕ → Prop) (hi cursor : ℕ) (rs : List IPRange) : Prop :=
  ∀ x, cursor ≤ x → (free x ↔ x ≤ hi ∧ ∀ r ∈ rs, ¬ r.Mem x)

theorem Ahead.skip {cursor : ℕ} {e : IPRange} {rs : List IPRange} (h : Ahead free hi cursor (e :: rs))
    (hlo : lo ≤ cursor) (he : e.stop < lo ∨ hi < e.start) : Ahead free hi cursor rs := by
  intro x hx
  rw [h x hx]
  simp only [List.mem_cons, forall_eq_or_imp]
  constructor
  · rintro ⟨hhi, -, hrs⟩
    exact ⟨hhi, hrs⟩
  · rintro ⟨hhi, hrs⟩
    refine ⟨hhi, ?_, hrs⟩
    rintro ⟨hs, ht⟩
    omega

theorem Ahead.pass {cursor : ℕ} {e : IPRange} {rs : List IPRange} (h : Ahead free hi cursor (e :: rs)) :
    Ahead free hi (max cursor (e.stop + 1)) rs := by
  intro x hx
  rw [h x (le_trans (le_max_left _ _) hx)]
  simp only [List.mem_cons, forall_eq_or_imp]
  constructor
  · rintro ⟨hhi, -, hrs⟩
    exact ⟨hhi, hrs⟩
  · rintro ⟨hhi, hrs⟩
    refine ⟨hhi, ?_, hrs⟩
    rintro ⟨hs, ht⟩
    have := le_trans (le_max_right cursor (e.stop + 1)) hx
    omega

theorem Ahead.gap {cursor : ℕ} {e : IPRange} {rs : List IPRange} (h : Ahead free hi cursor (e :: rs))
    (hs : Sorted (e :: rs)) (he : e.start ≤ hi + 1) {x : ℕ} (hx : cursor ≤ x) (hx' : x < e.start) :
    free x := by
  apply (h x hx).mpr
  refine ⟨by omega, ?_⟩
  intro r hr hm
  rcases List.mem_cons.mp hr with rfl | hr
  · exact absurd hm.1 (by omega)
  · have := (List.pairwise_cons.mp hs).1 r hr
    exact absurd hm.1 (by omega)

theorem Ahead.taken {cursor : ℕ} {e : IPRange} {rs : List IPRange} (h : Ahead free hi cursor (e :: rs))
    {x : ℕ} (hx : cursor ≤ x) (hm : e.Mem x) : ¬ free x := by
  intro hf
  exact ((h x hx).mp hf).2 e List.mem_cons_self hm

theorem Ahead.noneBelow {size cursor : ℕ} {e : IPRange} {rs : List IPRange} (h : Ahead free hi cursor (e :: rs))
    (hpos : 0 < size) (hse : e.start ≤ e.stop) (hn : NoneBelow free size cursor)
    (hgap : cursor < e.start → e.start - 1 < Dyadic.ceil cursor size + size - 1) :
    NoneBelow free size (e.stop + 1) := by
  by_cases hlt : cursor < e.start
  · have hstart : NoneBelow free size (e.start - 1 + 1) := by
      apply hn.skip_gap _ (hgap hlt)
      rw [Nat.sub_add_cancel (by omega)]
      exact h.taken (by omega) ⟨le_rfl, hse⟩
    apply hstart.skip_taken hpos
    intro x hx hx'
    exact h.taken (by omega) ⟨by omega, hx'⟩
  · apply hn.skip_taken hpos
    intro x hx hx'
    exact h.taken hx ⟨by omega, hx'⟩

theorem sweep_free {cursor : ℕ} {rs : List IPRange} (hs : Sorted rs) (hlo : lo ≤ cursor)
    (h : Ahead free hi cursor rs) : ∀ r ∈ sweep lo hi cursor rs, ∀ x, r.Mem x → free x := by
  induction rs generalizing cursor with
  | nil =>
    intro r hr x hx
    simp only [sweep] at hr
    split at hr
    · obtain rfl := List.mem_singleton.mp hr
      exact (h x hx.1).mpr ⟨hx.2, by simp⟩
    · simp at hr
  | cons e rs ih =>
    have hs' := (List.pairwise_cons.mp hs).2
    simp only [sweep]
    split
    · rename_i he
      exact ih hs' hlo (h.skip hlo he)
    · rename_i he
      have hpass := ih hs' (hlo.trans (le_max_left _ _)) h.pass
      split
      · intro r hr x hx
        rcases List.mem_cons.mp hr with rfl | hr
        · have := hx.2
          simp only at this
          exact h.gap hs (by omega) hx.1 (by omega)
        · exact hpass r hr x hx
      · exact hpass

theorem sweep_bounds {cursor : ℕ} {rs : List IPRange} :
    ∀ r ∈ sweep lo hi cursor rs, cursor ≤ r.start ∧ r.start ≤ r.stop ∧ r.stop ≤ hi := by
  induction rs generalizing cursor with
  | nil =>
    intro r hr
    simp only [sweep] at hr
    split at hr
    · obtain rfl := List.mem_singleton.mp hr
      exact ⟨le_rfl, ‹_›, le_rfl⟩
    · simp at hr
  | cons e rs ih =>
    simp only [sweep]
    split
    · exact ih
    · rename_i he
      have hrest : ∀ r ∈ sweep lo hi (max cursor (e.stop + 1)) rs,
          cursor ≤ r.start ∧ r.start ≤ r.stop ∧ r.stop ≤ hi := by
        intro r hr
        obtain ⟨hlo, h⟩ := ih r hr
        exact ⟨(le_max_left _ _).trans hlo, h⟩
      split
      · intro r hr
        rcases List.mem_cons.mp hr with rfl | hr
        · refine ⟨le_rfl, ?_, ?_⟩
          · simp only
            omega
          · simp only
            omega
        · exact hrest r hr
      · exact hrest

theorem sweep_pairwise {cursor : ℕ} {rs : List IPRange} (hwf : ∀ r ∈ rs, r.start ≤ r.stop) :
    (sweep lo hi cursor rs).Pairwise fun r s => r.stop < s.start := by
  induction rs generalizing cursor with
  | nil =>
    simp only [sweep]
    split
    · exact List.pairwise_singleton _ _
    · exact List.Pairwise.nil
  | cons e rs ih =>
    obtain ⟨hse, hwf'⟩ := List.forall_mem_cons.mp hwf
    simp only [sweep]
    split
    · exact ih hwf'
    · split
      · refine List.pairwise_cons.mpr ⟨?_, ih hwf'⟩
        intro r hr
        have hlo := (sweep_bounds r hr).1
        have := le_max_right cursor (e.stop + 1)
        simp only
        omega
      · exact ih hwf'

theorem sweep_run {cursor a b : ℕ} {rs : List IPRange} (hlo : lo ≤ cursor) (hwf : ∀ r ∈ rs, r.start ≤ r.stop)
    (h : Ahead free hi cursor rs) (ha : cursor ≤ a) (hab : a ≤ b) (hrun : ∀ x, a ≤ x → x ≤ b → free x) :
    ∃ r ∈ sweep lo hi cursor rs, r.start ≤ a ∧ b ≤ r.stop := by
  induction rs generalizing cursor with
  | nil =>
    have hb := ((h b (by omega)).mp (hrun b hab le_rfl)).1
    simp only [sweep, if_pos (show cursor ≤ hi by omega)]
    exact ⟨⟨cursor, hi⟩, List.mem_singleton.mpr rfl, ha, hb⟩
  | cons e rs ih =>
    obtain ⟨hse, hwf'⟩ := List.forall_mem_cons.mp hwf
    simp only [sweep]
    split
    · rename_i he
      exact ih hlo hwf' (h.skip hlo he) ha
    · -- the run ends before the taken range or starts after it
      have hside : b < e.start ∨ e.stop < a := by
        by_contra hmeet
        have hx : max a e.start ≤ b := by omega
        have htaken : ¬ free (max a e.start) := h.taken (by omega) ⟨le_max_right _ _, by omega⟩
        exact htaken (hrun _ (le_max_left _ _) hx)
      have hafter : e.stop < a → ∃ r ∈ sweep lo hi (max cursor (e.stop + 1)) rs, r.start ≤ a ∧ b ≤ r.stop :=
        fun hlt => ih (hlo.trans (le_max_left _ _)) hwf' h.pass (by omega)
      split
      · rcases hside with hlt | hlt
        · refine ⟨_, List.mem_cons_self, ha, ?_⟩
          simp only
          omega
        · obtain ⟨r, hr, hr'⟩ := hafter hlt
          exact ⟨r, List.mem_cons_of_mem _ hr, hr'⟩
      · exact hafter (by omega)

def startIn (size : ℕ) (r : IPRange) : Option ℕ :=
  if Dyadic.ceil r.start size + size - 1 ≤ r.stop then some (Dyadic.ceil r.start size) else none

theorem sweep_answer {size cursor : ℕ} {rs : List IPRange} (hpos : 0 < size) (hs : Sorted rs)
    (hlo : lo ≤ cursor) (hwf : ∀ r ∈ rs, r.start ≤ r.stop) (h : Ahead free hi cursor rs)
    (hn : NoneBelow free size cursor) :
    Answer free size ((sweep lo hi cursor rs).findSome? (startIn size)) := by
  induction rs generalizing cursor with
  | nil =>
    have htaken : ∀ x, cursor ≤ x → hi < x → ¬ free x := by
      intro x hx hx' hf
      have := ((h x hx).mp hf).1
      omega
    simp only [sweep]
    split
    · rename_i hc
      simp only [List.findSome?_cons, List.findSome?_nil, startIn]
      split
      · rename_i o s heq
        split at heq
        · rename_i hfit
          obtain rfl := Option.some.inj heq
          exact hn.answer_gap hpos (fun x hx hx' => (h x hx).mpr ⟨hx', by simp⟩) hfit
        · simp at heq
      · rename_i heq
        split at heq
        · simp at heq
        · rename_i hfit
          have hend : ∀ x, hi < x → ¬ free x := fun x hx => htaken x (by omega) hx
          exact hn.answer_none hpos hend (by omega)
    · rename_i hc
      intro s hfits
      have hle := hn s hfits
      exact htaken s hle (by omega) (hfits.isFree s le_rfl (by omega))
  | cons e rs ih =>
    have hs' := (List.pairwise_cons.mp hs).2
    have hwf' : ∀ r ∈ rs, r.start ≤ r.stop := fun r hr => hwf r (List.mem_cons_of_mem _ hr)
    have hse := hwf e List.mem_cons_self
    simp only [sweep]
    split
    · rename_i he
      exact ih hs' hlo hwf' (h.skip hlo he) hn
    · rename_i he
      have hpass : NoneBelow free size (e.stop + 1) →
          Answer free size ((sweep lo hi (max cursor (e.stop + 1)) rs).findSome? (startIn size)) := by
        intro hstop
        exact ih hs' (hlo.trans (le_max_left _ _)) hwf' h.pass (hn.max hstop)
      split
      · rename_i hgap
        simp only [List.findSome?_cons, startIn]
        by_cases hfit : Dyadic.ceil cursor size + size - 1 ≤ e.start - 1
        · rw [if_pos hfit]
          exact hn.answer_gap hpos (fun x hx hx' => h.gap hs (by omega) hx (by omega)) hfit
        · rw [if_neg hfit]
          exact hpass (h.noneBelow hpos hse hn fun _ => by omega)
      · rename_i hgap
        exact hpass (h.noneBelow hpos hse hn fun hlt => absurd hlt hgap)

end

end Ipam.Allocation
