import Mathlib.Data.Option.Basic
import Mathlib.Tactic

/-!
Chains of links `f`, whose nodes may be missing. `D` says which nodes are there, and a link from a node that is not
leads nowhere. The chains are bounded if no chain of links ends at a node that is there after more than `N` links.
-/

namespace Ipam.Chains

variable {α : Type*} {f f' : α → Option α} {D D' : α → Prop} {N : ℕ}

def climb (f : α → Option α) : ℕ → α → Option α
  | 0, a => some a
  | n + 1, a => (f a).bind (climb f n)

theorem climb_add (m n : ℕ) (a : α) : climb f (m + n) a = (climb f m a).bind (climb f n) := by
  induction m generalizing a with
  | zero => simp [climb]
  | succ m ih =>
    rw [Nat.succ_add]
    simp only [climb, Option.bind_assoc]
    congr 1
    funext b
    exact ih b

theorem climb_last (n : ℕ) (a : α) : climb f (n + 1) a = (climb f n a).bind f := by
  rw [climb_add]
  congr 1
  funext b
  simp [climb]

theorem climb_split {m n : ℕ} {a b : α} (h : climb f (m + n) a = some b) :
    ∃ c, climb f m a = some c ∧ climb f n c = some b := by
  rw [climb_add] at h
  exact Option.bind_eq_some_iff.mp h

theorem climb_trans {m n : ℕ} {a b c : α} (hm : climb f m a = some b) (hn : climb f n b = some c) :
    climb f (m + n) a = some c := by
  rw [climb_add, hm]
  exact hn

theorem climb_congr {n : ℕ} {a : α} (h : ∀ m < n, ∀ b, climb f m a = some b → f' b = f b) :
    climb f' n a = climb f n a := by
  induction n with
  | zero => rfl
  | succ n ih =>
    rw [climb_last, climb_last, ih fun m hm => h m (hm.trans (Nat.lt_succ_self n))]
    cases hn : climb f n a with
    | none => rfl
    | some b => exact h n (Nat.lt_succ_self n) b hn

def Bounded (f : α → Option α) (D : α → Prop) (N : ℕ) : Prop :=
  ∀ n a b, climb f n a = some b → D b → n ≤ N

theorem climb_cycle {n : ℕ} {a : α} (h : climb f n a = some a) (m : ℕ) : climb f (n * m) a = some a := by
  induction m with
  | zero => rfl
  | succ m ih =>
    rw [Nat.mul_succ]
    exact climb_trans ih h

theorem Bounded.acyclic (h : Bounded f D N) {n : ℕ} {a : α} (ha : D a) : climb f (n + 1) a ≠ some a := by
  intro hcycle
  have hle := h _ a a (climb_cycle hcycle (N + 1)) ha
  nlinarith

theorem Bounded.mono (h : Bounded f D N) (hD : ∀ a, D' a → D a) (hstored : ∀ a b, f' a = some b → D' a)
    (hlink : ∀ a b, f' a = some b → D' b → f a = some b) : Bounded f' D' N := by
  intro n a b hclimb hb
  have hold : climb f n a = some b := by
    induction n generalizing a with
    | zero => exact hclimb
    | succ n ih =>
      obtain ⟨c, hc, hrest⟩ := Option.bind_eq_some_iff.mp hclimb
      have hstep : f a = some c := by
        cases n with
        | zero =>
          obtain rfl := Option.some.inj hrest
          exact hlink a c hc hb
        | succ n =>
          obtain ⟨d, hd, -⟩ := Option.bind_eq_some_iff.mp hrest
          exact hlink a c hc (hstored c d hd)
      simp only [climb, hstep]
      exact ih c hrest
  exact h n a b hold (hD b hb)

theorem exists_first_gate (f : α → Option α) (S : α → Prop) (n : ℕ) (a : α) :
    (∀ m < n, ∀ b, climb f m a = some b → ¬ S b) ∨
      ∃ m < n, ∃ g, climb f m a = some g ∧ S g ∧ ∀ i < m, ∀ b, climb f i a = some b → ¬ S b := by
  induction n with
  | zero => exact Or.inl fun m hm => absurd hm (Nat.not_lt_zero m)
  | succ n ih =>
    rcases ih with hfree | ⟨m, hm, hgate⟩
    · by_cases hn : ∃ g, climb f n a = some g ∧ S g
      · obtain ⟨g, hg, hS⟩ := hn
        exact Or.inr ⟨n, Nat.lt_succ_self n, g, hg, hS, hfree⟩
      · left
        intro m hm b hb hS
        rcases Nat.lt_succ_iff_lt_or_eq.mp hm with hlt | rfl
        · exact hfree m hlt b hb hS
        · exact hn ⟨b, hb, hS⟩
    · exact Or.inr ⟨m, hm.trans (Nat.lt_succ_self n), hgate⟩

/-- The links of the gates `S` led nowhere, and now they all lead to `t`. -/
structure Rewired (f f' : α → Option α) (S : α → Prop) (t : Option α) : Prop where
  away : ∀ a, ¬ S a → f' a = f a
  gate : ∀ g, S g → f' g = t
  dead : ∀ g b, S g → f g = some b → ¬ S b ∧ f b = none

namespace Rewired

variable {S : α → Prop} {t : Option α}

theorem free_before (R : Rewired f f' S t) {n : ℕ} {a g : α} (hclimb : climb f n a = some g) (hg : S g) :
    ∀ m < n, ∀ b, climb f m a = some b → ¬ S b := by
  intro m hm b hb hS
  obtain ⟨i, rfl⟩ : ∃ i, n = m + (i + 1) := ⟨n - m - 1, by omega⟩
  obtain ⟨b', hb', hrest⟩ := climb_split hclimb
  obtain rfl : b = b' := Option.some.inj (hb.symm.trans hb')
  obtain ⟨c, hc, hrest⟩ := Option.bind_eq_some_iff.mp hrest
  obtain ⟨hnot, hnone⟩ := R.dead b c hS hc
  cases i with
  | zero =>
    obtain rfl := Option.some.inj hrest
    exact hnot hg
  | succ i =>
    simp only [climb, hnone] at hrest
    cases hrest

theorem climb_eq (R : Rewired f f' S t) {n : ℕ} {a : α} (h : ∀ m < n, ∀ b, climb f m a = some b → ¬ S b) :
    climb f' n a = climb f n a :=
  climb_congr fun m hm b hb => R.away b (h m hm b hb)

theorem climb_eq' (R : Rewired f f' S t) {n : ℕ} {a : α} (h : ∀ m < n, ∀ b, climb f' m a = some b → ¬ S b) :
    climb f n a = climb f' n a :=
  climb_congr fun m hm b hb => (R.away b (h m hm b hb)).symm

/-- The chains stay bounded exactly if those up to a gate and those from `t` are short enough together, and
none of the latter comes back to a gate. -/
theorem bounded_iff (R : Rewired f f' S t) (hstored : ∀ g, S g → D' g) :
    Bounded f' D' N ↔
      (∀ n a b, climb f n a = some b → (∀ m < n, ∀ c, climb f m a = some c → ¬ S c) → D' b → n ≤ N) ∧
        ∀ u, t = some u → (∀ n g, S g → climb f n u ≠ some g) ∧
          ∀ m n a g b, S g → climb f m a = some g → climb f n u = some b → D' b → m + 1 + n ≤ N := by
  constructor
  · intro h
    refine ⟨?_, ?_⟩
    · intro n a b hclimb hfree hb
      exact h n a b ((R.climb_eq hfree).trans hclimb) hb
    · intro u hu
      have hopen : ∀ g, S g → f' g = some u := fun g hg => (R.gate g hg).trans hu
      have hback : ∀ n g, S g → climb f n u ≠ some g := by
        intro n g hg hclimb
        have hnew : climb f' n u = some g := (R.climb_eq (R.free_before hclimb hg)).trans hclimb
        have hcycle : climb f' (n + 1) g = some g := by
          simp only [climb, hopen g hg]
          exact hnew
        exact h.acyclic (hstored g hg) hcycle
      refine ⟨hback, ?_⟩
      intro m n a g b hg hm hn hb
      have hup : climb f' m a = some g := (R.climb_eq (R.free_before hm hg)).trans hm
      have hon : climb f' n u = some b := (R.climb_eq fun i _ c hc hS => hback i c hS hc).trans hn
      have hgate : climb f' (m + 1) a = some u := by
        rw [climb_last, hup]
        exact hopen g hg
      exact h _ a b (climb_trans hgate hon) hb
  · rintro ⟨hfree, hgates⟩ n a b hclimb hb
    rcases exists_first_gate f' S n a with hnone | ⟨m, hm, g, hup, hg, hbefore⟩
    · have hold : climb f n a = some b := (R.climb_eq' hnone).trans hclimb
      refine hfree n a b hold ?_ hb
      intro m hm c hc
      apply hnone m hm c
      rw [← R.climb_eq' fun i hi => hnone i (hi.trans hm)]
      exact hc
    · obtain ⟨i, rfl⟩ : ∃ i, n = m + (i + 1) := ⟨n - m - 1, by omega⟩
      obtain ⟨g', hg', hrest⟩ := climb_split hclimb
      obtain rfl : g = g' := Option.some.inj (hup.symm.trans hg')
      obtain ⟨u, hu, hon⟩ := Option.bind_eq_some_iff.mp hrest
      obtain ⟨hback, hbound⟩ := hgates u ((R.gate g hg).symm.trans hu)
      have hon' : climb f i u = some b := (R.climb_eq fun j _ c hc hS => hback j c hS hc).symm.trans hon
      have hle := hbound m i a g b hg ((R.climb_eq' hbefore).trans hup) hon' hb
      omega

end Rewired

end Ipam.Chains
