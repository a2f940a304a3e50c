import Mathlib.Data.Prod.Lex
import Mathlib.Data.List.Pairwise
import Mathlib.Data.List.Sort
import Mathlib.Logic.Relation

/-!
A log that transactions append to while they run. Transactions are numbered in the order in which they take their
number; rows are numbered when they are written; a reader sees the rows of committed transactions. The horizon is
the least number of a transaction still running. What lies below it cannot change any more.
-/

namespace Ipam.Changefeed

inductive Fate where
  | running
  | committed
  | aborted
  deriving DecidableEq, Repr

class Stamped (α : Type) where
  xid : α → ℕ
  id : α → ℕ

export Stamped (xid)

variable {α : Type} [Stamped α]

def pos (r : α) : ℕ ×ₗ ℕ :=
  toLex (xid r, Stamped.id r)

theorem pos_lt_iff {r s : α} : pos r < pos s ↔ xid r < xid s ∨ xid r = xid s ∧ Stamped.id r < Stamped.id s :=
  Prod.Lex.toLex_lt_toLex

theorem xid_le_of_pos_le {r : α} {c : ℕ ×ₗ ℕ} (h : pos r ≤ c) : xid r ≤ (ofLex c).1 := by
  have h' : xid r < (ofLex c).1 ∨ xid r = (ofLex c).1 ∧ Stamped.id r ≤ (ofLex c).2 :=
    Prod.Lex.le_iff.mp h
  omega

theorem ascending_ext {rows rows' : List α} (h : rows.Pairwise fun r s => pos r < pos s)
    (h' : rows'.Pairwise fun r s => pos r < pos s) (hmem : ∀ r, r ∈ rows ↔ r ∈ rows') : rows = rows' := by
  have hne : ∀ {a b : α}, pos a < pos b → a ≠ b := fun hlt heq => absurd (heq ▸ hlt) (lt_irrefl _)
  have hperm : rows.Perm rows' := (List.perm_ext_iff_of_nodup (h.imp hne) (h'.imp hne)).mpr hmem
  exact hperm.eq_of_pairwise (fun a b _ _ hab hba => absurd (hab.trans hba) (lt_irrefl _)) h h'

variable (α) in
structure Log where
  fates : List Fate
  rows : List α
  drawn : ℕ
  began : ∀ r ∈ rows, xid r < fates.length
  numbered : rows.Pairwise fun r s => Stamped.id r < Stamped.id s
  bounded : ∀ r ∈ rows, Stamped.id r ≤ drawn
  positive : ∀ r ∈ rows, 0 < Stamped.id r

namespace Log

def empty : Log α where
  fates := []
  rows := []
  drawn := 0
  began := by simp
  numbered := List.Pairwise.nil
  bounded := by simp
  positive := by simp

def Running (L : Log α) (x : ℕ) : Prop :=
  L.fates[x]? = some .running

def Committed (L : Log α) (x : ℕ) : Prop :=
  L.fates[x]? = some .committed

instance (L : Log α) (x : ℕ) : Decidable (L.Running x) :=
  inferInstanceAs (Decidable (_ = _))

instance (L : Log α) (x : ℕ) : Decidable (L.Committed x) :=
  inferInstanceAs (Decidable (_ = _))

def horizon (L : Log α) : ℕ :=
  L.fates.findIdx (· = .running)

def begin (L : Log α) : Log α where
  fates := L.fates ++ [.running]
  rows := L.rows
  drawn := L.drawn
  began r hr := by
    have h := L.began r hr
    rw [List.length_append]
    omega
  numbered := L.numbered
  bounded := L.bounded
  positive := L.positive

def insert (L : Log α) (r : α) (hrun : L.Running (xid r)) (hid : L.drawn < Stamped.id r) : Log α where
  fates := L.fates
  rows := L.rows ++ [r]
  drawn := Stamped.id r
  began s hs := by
    rcases List.mem_append.mp hs with hs | hs
    · exact L.began s hs
    · rw [List.mem_singleton.mp hs]
      exact (List.getElem?_eq_some_iff.mp hrun).1
  numbered := by
    refine List.pairwise_append.mpr ⟨L.numbered, List.pairwise_singleton _ _, ?_⟩
    intro s hs t ht
    rw [List.mem_singleton.mp ht]
    exact lt_of_le_of_lt (L.bounded s hs) hid
  bounded s hs := by
    rcases List.mem_append.mp hs with hs | hs
    · exact (lt_of_le_of_lt (L.bounded s hs) hid).le
    · rw [List.mem_singleton.mp hs]
  positive s hs := by
    rcases List.mem_append.mp hs with hs | hs
    · exact L.positive s hs
    · rw [List.mem_singleton.mp hs]
      omega

def finish (L : Log α) (x : ℕ) (f : Fate) : Log α where
  fates := L.fates.set x f
  rows := L.rows
  drawn := L.drawn
  began r hr := by
    rw [List.length_set]
    exact L.began r hr
  numbered := L.numbered
  bounded := L.bounded
  positive := L.positive

def without (L : Log α) (gone : List ℕ) : Log α where
  fates := L.fates
  rows := L.rows.filter fun r => Stamped.id r ∉ gone
  drawn := L.drawn
  began r hr := L.began r (List.mem_of_mem_filter hr)
  numbered := L.numbered.filter _
  bounded r hr := L.bounded r (List.mem_of_mem_filter hr)
  positive r hr := L.positive r (List.mem_of_mem_filter hr)

inductive Step : Log α → Log α → Prop
  | begin (L : Log α) : Step L L.begin
  | insert (L : Log α) (r : α) (hrun : L.Running (xid r)) (hid : L.drawn < Stamped.id r) :
      Step L (L.insert r hrun hid)
  | finish (L : Log α) (x : ℕ) (f : Fate) (hrun : L.Running x) (hf : f ≠ .running) : Step L (L.finish x f)

abbrev Grows : Log α → Log α → Prop :=
  Relation.ReflTransGen Step

theorem lt_horizon_iff {L : Log α} {x : ℕ} :
    x < L.horizon ↔ x < L.fates.length ∧ ∀ y ≤ x, ¬ L.Running y := by
  unfold horizon Running
  constructor
  · intro h
    refine ⟨lt_of_lt_of_le h List.findIdx_le_length, ?_⟩
    intro y hy hrun
    have hlt : y < L.fates.findIdx (· = .running) := lt_of_le_of_lt hy h
    have hnot := List.not_of_lt_findIdx hlt
    obtain ⟨hlen, heq⟩ := List.getElem?_eq_some_iff.mp hrun
    simp [heq] at hnot
  · rintro ⟨hlen, hrun⟩
    by_contra hle
    have hfound : L.fates.findIdx (· = .running) ≤ x := not_lt.mp hle
    have hbound : L.fates.findIdx (· = .running) < L.fates.length := lt_of_le_of_lt hfound hlen
    have hget := List.findIdx_getElem (w := hbound)
    refine hrun _ hfound ?_
    rw [List.getElem?_eq_getElem hbound]
    simpa using hget

theorem Step.running_of_lt {L L' : Log α} (h : Step L L') {x : ℕ} (hx : x < L.fates.length)
    (hrun : L'.Running x) : L.Running x := by
  cases h with
  | begin =>
    have hrun' : (L.fates ++ [.running])[x]? = some .running := hrun
    rwa [List.getElem?_append_left hx] at hrun'
  | insert r hr hid => exact hrun
  | finish y f hy hf =>
    have hrun' : (L.fates.set y f)[x]? = some .running := hrun
    by_cases hxy : y = x
    · subst hxy
      exact hy
    · rwa [List.getElem?_set_ne hxy] at hrun'

theorem Step.length_le {L L' : Log α} (h : Step L L') : L.fates.length ≤ L'.fates.length := by
  cases h with
  | begin =>
    change L.fates.length ≤ (L.fates ++ [Fate.running]).length
    rw [List.length_append]
    omega
  | insert r hr hid => exact le_rfl
  | finish y f hy hf =>
    change L.fates.length ≤ (L.fates.set y f).length
    rw [List.length_set]

theorem Step.horizon_le {L L' : Log α} (h : Step L L') : L.horizon ≤ L'.horizon := by
  refine le_of_forall_lt fun x hx => ?_
  obtain ⟨hlen, hrun⟩ := lt_horizon_iff.mp hx
  refine lt_horizon_iff.mpr ⟨lt_of_lt_of_le hlen h.length_le, ?_⟩
  intro y hy hrun'
  exact hrun y hy (h.running_of_lt (lt_of_le_of_lt hy hlen) hrun')

theorem Step.fate {L L' : Log α} (h : Step L L') {x : ℕ} {f : Fate} (hx : L.fates[x]? = some f)
    (hf : f ≠ .running) : L'.fates[x]? = some f := by
  cases h with
  | begin =>
    change (L.fates ++ [.running])[x]? = some f
    rw [List.getElem?_append_left (List.getElem?_eq_some_iff.mp hx).1]
    exact hx
  | insert r hr hid => exact hx
  | finish y g hy hg =>
    change (L.fates.set y g)[x]? = some f
    rw [List.getElem?_set_ne]
    · exact hx
    · rintro rfl
      rw [Running, hx] at hy
      exact hf (Option.some.inj hy)

theorem Step.committed {L L' : Log α} (h : Step L L') {x : ℕ} (hx : L.Committed x) : L'.Committed x :=
  h.fate hx (by decide)

theorem Step.committed_iff {L L' : Log α} (h : Step L L') {x : ℕ} (hx : x < L.horizon) :
    L'.Committed x ↔ L.Committed x := by
  refine ⟨fun hc => ?_, h.committed⟩
  obtain ⟨hlen, hrun⟩ := lt_horizon_iff.mp hx
  cases h with
  | begin =>
    have hc' : (L.fates ++ [.running])[x]? = some .committed := hc
    rwa [List.getElem?_append_left hlen] at hc'
  | insert r hr hid => exact hc
  | finish y f hy hf =>
    have hc' : (L.fates.set y f)[x]? = some .committed := hc
    rw [List.getElem?_set_ne] at hc'
    · exact hc'
    · rintro rfl
      exact hrun y le_rfl hy

def visible (L : Log α) : List α :=
  L.rows.filter fun r => L.Committed (xid r)

theorem mem_visible {L : Log α} {r : α} : r ∈ L.visible ↔ r ∈ L.rows ∧ L.Committed (xid r) := by
  simp [visible]

theorem without_visible (L : Log α) (gone : List ℕ) :
    (L.without gone).visible = L.visible.filter fun r => Stamped.id r ∉ gone := by
  change (L.rows.filter _).filter _ = (L.rows.filter _).filter _
  rw [List.filter_filter, List.filter_filter]
  refine List.filter_congr fun r _ => ?_
  exact Bool.and_comm _ _

theorem Step.visible_below {L L' : Log α} (h : Step L L') {r : α} (hx : xid r < L.horizon) :
    r ∈ L'.visible ↔ r ∈ L.visible := by
  rw [mem_visible, mem_visible, h.committed_iff hx]
  refine and_congr_left fun _ => ?_
  cases h with
  | begin => exact Iff.rfl
  | insert s hs hid =>
    change r ∈ L.rows ++ [s] ↔ r ∈ L.rows
    rw [List.mem_append, List.mem_singleton, or_iff_left]
    rintro rfl
    exact (lt_horizon_iff.mp hx).2 _ le_rfl hs
  | finish y f hy hf => exact Iff.rfl

theorem Step.visible_filter {L L' : Log α} (h : Step L L') {p : α → Bool} (hp : ∀ r, p r → xid r < L.horizon) :
    L'.visible.filter p = L.visible.filter p := by
  have hrows : ∀ rows : List α, (rows.filter fun r => L'.Committed (xid r)).filter p =
      (rows.filter fun r => L.Committed (xid r)).filter p := by
    intro rows
    rw [List.filter_filter, List.filter_filter]
    refine List.filter_congr fun r _ => ?_
    by_cases hr : p r
    · simp [hr, h.committed_iff (hp r hr)]
    · simp [hr]
  have hfilter := hrows L'.rows
  cases h with
  | begin => exact hfilter
  | insert s hs hid =>
    refine hfilter.trans ?_
    change ((L.rows ++ [s]).filter fun r => L.Committed (xid r)).filter p = _
    have hnot : ¬ L.Committed (xid s) := by
      intro hc
      rw [Committed, hs] at hc
      cases hc
    rw [List.filter_append, List.filter_singleton, decide_eq_false hnot, cond_false, List.append_nil]
    rfl
  | finish y f hy hf => exact hfilter

theorem Step.visible {L L' : Log α} (h : Step L L') {r : α} (hr : r ∈ L.visible) : r ∈ L'.visible := by
  obtain ⟨hmem, hc⟩ := mem_visible.mp hr
  refine mem_visible.mpr ⟨?_, h.committed hc⟩
  cases h with
  | begin => exact hmem
  | insert s hs hid => exact List.mem_append_left _ hmem
  | finish y f hy hf => exact hmem

theorem Grows.horizon_le {L L' : Log α} (h : Grows L L') : L.horizon ≤ L'.horizon := by
  induction h with
  | refl => exact le_rfl
  | tail _ hstep ih => exact ih.trans hstep.horizon_le

theorem Grows.visible {L L' : Log α} (h : Grows L L') {r : α} (hr : r ∈ L.visible) : r ∈ L'.visible := by
  induction h with
  | refl => exact hr
  | tail _ hstep ih => exact hstep.visible ih

theorem Grows.visible_below {L L' : Log α} (h : Grows L L') {r : α} (hx : xid r < L.horizon) :
    r ∈ L'.visible ↔ r ∈ L.visible := by
  induction h with
  | refl => exact Iff.rfl
  | tail hgrows hstep ih =>
    exact (hstep.visible_below (lt_of_lt_of_le hx (Grows.horizon_le hgrows))).trans ih

theorem lt_horizon_of_finished {L : Log α} {x : ℕ} (hc : L.Committed x) (h : ∀ y < x, ¬ L.Running y) :
    x < L.horizon := by
  refine lt_horizon_iff.mpr ⟨(List.getElem?_eq_some_iff.mp hc).1, ?_⟩
  intro y hy hrun
  rcases lt_or_eq_of_le hy with hlt | rfl
  · exact h y hlt hrun
  · rw [Committed, hrun] at hc
    cases hc

end Log

end Ipam.Changefeed
