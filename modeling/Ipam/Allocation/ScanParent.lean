import Ipam.Allocation.Placement
import Ipam.Allocation.Scan

namespace Ipam.Allocation

open FirstFit

def Clear (p : IPNet) (cs : List IPNet) (x : ℕ) : Prop :=
  p.Mem x ∧ ∀ c ∈ cs, c.bits = p.bits → ¬ c.Mem x

def seen (p : IPNet) (cs : List IPNet) : List IPRange :=
  (cs.filter fun c => c.bits = p.bits).map rangeOf

def Takes (p : IPNet) (n : ℤ) : Prop :=
  ¬ (n < p.ones ∨ (p.bits.bits : ℤ) < n)

instance (p : IPNet) (n : ℤ) : Decidable (Takes p n) :=
  inferInstanceAs (Decidable (¬ _))

theorem Takes.toNat_le {p : IPNet} {n : ℤ} (h : Takes p n) : n.toNat ≤ p.bits.bits := by
  simp only [Takes] at h
  omega

def unitOf (p : IPNet) (n : ℤ) : ℕ :=
  blockSize n.toNat p.bits.bits

theorem unitOf_pos (p : IPNet) (n : ℤ) : 0 < unitOf p n :=
  blockSize_pos _ _

def FirstIn (free : ℕ → Prop) (p : IPNet) (n : ℤ) : Option IPNet → Prop
  | some b => ∃ h : Takes p n, ∃ start, Answer free (unitOf p n) (some start) ∧
      b = makeCIDR start n.toNat p.bits h.toNat_le
  | none => Takes p n → Answer free (unitOf p n) none

theorem FirstIn.unique {free : ℕ → Prop} {p : IPNet} {n : ℤ} {o o' : Option IPNet} (h : FirstIn free p n o)
    (h' : FirstIn free p n o') : o = o' := by
  cases o with
  | none =>
    cases o' with
    | none => rfl
    | some b =>
      obtain ⟨htakes, start, hanswer, -⟩ := h'
      cases (h htakes).unique hanswer
  | some b =>
    obtain ⟨htakes, start, hanswer, rfl⟩ := h
    cases o' with
    | none => cases hanswer.unique (h' htakes)
    | some b' =>
      obtain ⟨-, start', hanswer', rfl⟩ := h'
      obtain rfl := Option.some.inj (hanswer.unique hanswer')
      rfl

def underway (p : IPNet) (rest : List IPNet) (n : ℤ) (cursor : ℕ) (last : Option ℕ)
    (firstFree : Option (ℕ × Family)) : Scan :=
  ⟨p :: rest, n, p.bits, cidrLastAddr p, cursor, last, firstFree, none, none, false⟩

structure Reached (p : IPNet) (free : ℕ → Prop) (n : ℤ) (cursor : ℕ) (ahead : List IPNet) : Prop where
  le : cidrFirstAddr p ≤ cursor
  noneBelow : Takes p n → NoneBelow free (unitOf p n) cursor
  ahead : Ahead free (cidrLastAddr p) cursor (seen p ahead)

structure Decided (p : IPNet) (free : ℕ → Prop) (n : ℤ) (s : Scan) : Prop where
  done : s.done = true
  found : ∃ b, s.result = some b ∧ FirstIn free p n (some b)

abbrev floored (floor : Option ℕ) (s : Scan) : Scan :=
  { s with floor := floor }

def NotedHere (p : IPNet) (free : ℕ → Prop) (before after : Option (ℕ × Family)) : Prop :=
  ∃ a, after = before.or (some (a, p.bits)) ∧ free a ∧ ∀ x, free x → a ≤ x

def Noted (p : IPNet) (free : ℕ → Prop) (cursor : ℕ) (before after : Option (ℕ × Family)) : Prop :=
  (after = before ∧ ∀ x, free x → cursor ≤ x) ∨ NotedHere p free before after

section

variable {p : IPNet} {rest : List IPNet} {n : ℤ} {cursor : ℕ} {floor last : Option ℕ}
  {before firstFree : Option (ℕ × Family)} {free : ℕ → Prop}

theorem Noted.pass {cursor' : ℕ} (h : Noted p free cursor before firstFree)
    (hpass : ∀ x, free x → cursor ≤ x → cursor' ≤ x) : Noted p free cursor' before firstFree := by
  obtain ⟨heq, hnone⟩ | hfound := h
  · exact .inl ⟨heq, fun x hx => hpass x hx (hnone x hx)⟩
  · exact .inr hfound

theorem Noted.note (h : Noted p free cursor before firstFree) (hfree : free cursor) :
    NotedHere p free before (firstFree.or (some (cursor, p.bits))) := by
  obtain ⟨rfl, hnone⟩ | ⟨a, rfl, ha⟩ := h
  · exact ⟨cursor, rfl, hfree, hnone⟩
  · refine ⟨a, ?_, ha⟩
    cases before with
    | none => rfl
    | some b => rfl

theorem tryFit_underway (lo hi : ℕ) :
    (floored floor (underway p rest n cursor last firstFree)).tryFit lo hi =
      if h : Takes p n then
        (startIn (unitOf p n) ⟨lo, hi⟩).map fun start =>
          { floored floor (underway p rest n cursor last firstFree) with
            result := some (makeCIDR start n.toNat p.bits h.toNat_le), done := true }
      else none := by
  by_cases h : Takes p n
  · have htry : (floored floor (underway p rest n cursor last firstFree)).tryFit lo hi =
        (fitIn p.bits n.toNat h.toNat_le lo hi).map fun block =>
          { floored floor (underway p rest n cursor last firstFree) with result := some block, done := true } :=
      dif_neg h
    rw [dif_pos h, htry, fitIn_eq_map p.bits n.toNat h.toNat_le ⟨lo, hi⟩, Option.map_map]
    rfl
  · rw [dif_neg h]
    exact dif_pos (not_not.mp h)

theorem noteFirstFree_underway (x : ℕ) :
    (floored floor (underway p rest n cursor last firstFree)).noteFirstFree x =
      floored floor (underway p rest n cursor last (firstFree.or (some (x, p.bits)))) := by
  cases firstFree with
  | none => rfl
  | some a => rfl

theorem tryFit_decides {hi : ℕ} (hnone : Takes p n → NoneBelow free (unitOf p n) cursor)
    (hfree : ∀ x, cursor ≤ x → x ≤ hi → free x) :
    match (floored floor (underway p rest n cursor last firstFree)).tryFit cursor hi with
    | some s => Decided p free n s ∧ s.firstFree = firstFree
    | none => Takes p n → hi < Dyadic.ceil cursor (unitOf p n) + unitOf p n - 1 := by
  rw [tryFit_underway]
  by_cases htakes : Takes p n
  · rw [dif_pos htakes]
    simp only [startIn]
    by_cases hfit : Dyadic.ceil cursor (unitOf p n) + unitOf p n - 1 ≤ hi
    · rw [if_pos hfit]
      have hanswer := (hnone htakes).answer_gap (unitOf_pos p n) hfree hfit
      exact ⟨⟨rfl, _, rfl, htakes, _, hanswer, rfl⟩, rfl⟩
    · rw [if_neg hfit]
      intro _
      omega
  · rw [dif_neg htakes]
    intro h
    exact absurd h htakes

theorem feedOne_underway {c : IPNet} (hbits : c.bits = p.bits) (hlast : ∀ l, last = some l → l ≤ cidrFirstAddr c) :
    (floored floor (underway p rest n cursor last firstFree)).feedOne c =
      if cidrLastAddr p < cidrFirstAddr c then
        .ok (floored floor (underway p rest n cursor (some (cidrFirstAddr c)) firstFree))
      else if cidrLastAddr c < cursor then
        .ok (floored floor (underway p rest n cursor (some (cidrFirstAddr c)) firstFree))
      else if cursor < cidrFirstAddr c then
        match (floored floor (underway p rest n cursor (some (cidrFirstAddr c))
            (firstFree.or (some (cursor, p.bits))))).tryFit cursor (cidrFirstAddr c - 1) with
        | some s => .ok s
        | none => .ok (floored floor (underway p rest n (max cursor (cidrLastAddr c + 1)) (some (cidrFirstAddr c))
            (firstFree.or (some (cursor, p.bits)))))
      else .ok (floored floor (underway p rest n (max cursor (cidrLastAddr c + 1)) (some (cidrFirstAddr c)) firstFree)) := by
  have horder : ¬ (last.any fun l => cidrFirstAddr c < l) = true := by
    cases last with
    | none => simp
    | some l => simpa using hlast l rfl
  have hbits' : ¬ c.bits ≠ (floored floor (underway p rest n cursor last firstFree)).bits := not_not.mpr hbits
  have hnote := @noteFirstFree_underway p rest n cursor floor (some (cidrFirstAddr c)) firstFree cursor
  simp only [Scan.feedOne, if_neg hbits']
  refine (if_neg horder).trans ?_
  simp only [underway] at hnote ⊢
  simp only [cidrBounds, hnote]
  rfl

theorem seen_sorted {cs : List IPNet}
    (h : cs.Pairwise fun c d => c.bits = d.bits → cidrFirstAddr c ≤ cidrFirstAddr d) : Sorted (seen p cs) := by
  apply List.pairwise_map.mpr
  apply List.Pairwise.imp_of_mem _ (h.filter _)
  intro c d hc hd hle
  have hc' := of_decide_eq_true (List.mem_filter.mp hc).2
  have hd' := of_decide_eq_true (List.mem_filter.mp hd).2
  exact hle (hc'.trans hd'.symm)

theorem Reached.past {c : IPNet} {ahead : List IPNet} (hbits : c.bits = p.bits)
    (h : Reached p free n cursor (c :: ahead))
    (hgap : Takes p n → cursor < cidrFirstAddr c →
      cidrFirstAddr c - 1 < Dyadic.ceil cursor (unitOf p n) + unitOf p n - 1) :
    Reached p free n (max cursor (cidrLastAddr c + 1)) ahead := by
  have hahead := h.ahead
  have hseen : seen p (c :: ahead) = rangeOf c :: seen p ahead := by
    simp only [seen, List.filter_cons, hbits, decide_true, if_true, List.map_cons]
  rw [hseen] at hahead
  refine ⟨h.le.trans (le_max_left _ _), ?_, hahead.pass⟩
  intro htakes
  have hnone := h.noneBelow htakes
  exact hnone.max (hahead.noneBelow (unitOf_pos p n) (rangeOf_start_le_stop c) hnone (hgap htakes))

theorem seen_cons {c : IPNet} {ahead : List IPNet} (hbits : c.bits = p.bits) :
    seen p (c :: ahead) = rangeOf c :: seen p ahead := by
  simp only [seen, List.filter_cons, hbits, decide_true, if_true, List.map_cons]

inductive Outcome (p : IPNet) (rest : List IPNet) (n : ℤ) (floor : Option ℕ) (free : ℕ → Prop)
    (before : Option (ℕ × Family)) (ahead : List IPNet) (last : Option ℕ → Prop) : Scan → Prop where
  | further {cursor' : ℕ} {last' : Option ℕ} {firstFree' : Option (ℕ × Family)}
      (reached : Reached p free n cursor' ahead) (noted : Noted p free cursor' before firstFree') (order : last last') :
      Outcome p rest n floor free before ahead last (floored floor (underway p rest n cursor' last' firstFree'))
  | decided {s : Scan} (h : Decided p free n s) (noted : NotedHere p free before s.firstFree) :
      Outcome p rest n floor free before ahead last s

theorem feedOne_reached {c : IPNet} {ahead : List IPNet}
    (hlast : ∀ l, last = some l → c.bits = p.bits → l ≤ cidrFirstAddr c)
    (hascending : (c :: ahead).Pairwise fun c d => c.bits = d.bits → cidrFirstAddr c ≤ cidrFirstAddr d)
    (h : Reached p free n cursor (c :: ahead)) (hnoted : Noted p free cursor before firstFree) :
    ∃ s, (floored floor (underway p rest n cursor last firstFree)).feedOne c = .ok s ∧
      Outcome p rest n floor free before ahead
        (fun last' => last' = last ∨ c.bits = p.bits ∧ last' = some (cidrFirstAddr c)) s := by
  by_cases hbits : c.bits = p.bits
  · have hseen := @seen_cons p c ahead hbits
    have hsorted := @seen_sorted p _ hascending
    have hahead := h.ahead
    have horder : some (cidrFirstAddr c) = last ∨ c.bits = p.bits ∧ some (cidrFirstAddr c) = some (cidrFirstAddr c) :=
      .inr ⟨hbits, rfl⟩
    rw [hseen] at hahead hsorted
    rw [feedOne_underway hbits fun l hl => hlast l hl hbits]
    by_cases habove : cidrLastAddr p < cidrFirstAddr c
    · rw [if_pos habove]
      exact ⟨_, rfl, .further ⟨h.le, h.noneBelow, hahead.skip h.le (Or.inr habove)⟩ hnoted horder⟩
    rw [if_neg habove]
    by_cases hbehind : cidrLastAddr c < cursor
    · have hpast := h.past hbits fun _ hlt => by have := c.cidrFirstAddr_le_last; omega
      rw [max_eq_left hbehind] at hpast
      rw [if_pos hbehind]
      exact ⟨_, rfl, .further hpast hnoted horder⟩
    rw [if_neg hbehind]
    by_cases hgap : cursor < cidrFirstAddr c
    · rw [if_pos hgap]
      have hfree : ∀ x, cursor ≤ x → x ≤ cidrFirstAddr c - 1 → free x := by
        intro x hx hx'
        refine hahead.gap hsorted ?_ hx ?_
        · change cidrFirstAddr c ≤ cidrLastAddr p + 1
          omega
        · change x < cidrFirstAddr c
          omega
      have hnote := hnoted.note (hfree cursor le_rfl (by omega))
      have htry := @tryFit_decides p rest n cursor floor (some (cidrFirstAddr c)) (firstFree.or (some (cursor, p.bits)))
        free _ h.noneBelow hfree
      cases hfit : (floored floor (underway p rest n cursor (some (cidrFirstAddr c))
          (firstFree.or (some (cursor, p.bits))))).tryFit cursor (cidrFirstAddr c - 1) with
      | some s =>
        rw [hfit] at htry
        refine ⟨s, rfl, .decided htry.1 ?_⟩
        rw [htry.2]
        exact hnote
      | none =>
        rw [hfit] at htry
        exact ⟨_, rfl, .further (h.past hbits fun htakes _ => htry htakes) (.inr hnote) horder⟩
    · rw [if_neg hgap]
      refine ⟨_, rfl, .further (h.past hbits fun _ hlt => absurd hlt hgap) (hnoted.pass ?_) horder⟩
      intro x hx hle
      by_contra hlt
      refine hahead.taken hle ⟨?_, ?_⟩ hx
      · change cidrFirstAddr c ≤ x
        omega
      · change x ≤ cidrLastAddr c
        omega
  · have hseen : seen p (c :: ahead) = seen p ahead := by
      simp only [seen, List.filter_cons, hbits, decide_false, Bool.false_eq_true, if_false]
    have hone : (floored floor (underway p rest n cursor last firstFree)).feedOne c =
        .ok (floored floor (underway p rest n cursor last firstFree)) := if_pos hbits
    exact ⟨_, hone, .further ⟨h.le, h.noneBelow, hseen ▸ h.ahead⟩ hnoted (Or.inl rfl)⟩

theorem decided_feedAll {s : Scan} (h : s.done = true) (cs : List IPNet) : s.feedAll cs = .ok s := by
  cases cs with
  | nil => rfl
  | cons c cs => simp only [Scan.feedAll, h, if_true]

theorem feedAll_reached {cs : List IPNet}
    (hlast : ∀ l, last = some l → ∀ c ∈ cs, c.bits = p.bits → l ≤ cidrFirstAddr c)
    (hascending : cs.Pairwise fun c d => c.bits = d.bits → cidrFirstAddr c ≤ cidrFirstAddr d)
    (h : Reached p free n cursor cs) (hnoted : Noted p free cursor before firstFree) :
    ∃ s, (floored floor (underway p rest n cursor last firstFree)).feedAll cs = .ok s ∧
      Outcome p rest n floor free before [] (fun _ => True) s := by
  induction cs generalizing cursor last firstFree with
  | nil => exact ⟨_, rfl, .further h hnoted trivial⟩
  | cons c cs ih =>
    obtain ⟨s, hone, hcase⟩ := @feedOne_reached p rest n cursor floor last before firstFree free c cs
      (fun l hl => hlast l hl c List.mem_cons_self) hascending h hnoted
    obtain ⟨hfirst, hrest⟩ := List.pairwise_cons.mp hascending
    have hfeed : (floored floor (underway p rest n cursor last firstFree)).feedAll (c :: cs) = s.feedAll cs := by
      simp only [Scan.feedAll, hone]
      rfl
    rw [hfeed]
    cases hcase with
    | @further cursor' last' firstFree' hreached hnoted' horder =>
      apply ih _ hrest hreached hnoted'
      intro l hl d hd hd'
      obtain rfl | ⟨hbits, rfl⟩ := horder
      · exact hlast l hl d (List.mem_cons_of_mem _ hd) hd'
      · obtain rfl := Option.some.inj hl
        exact hfirst d hd (hbits.trans hd'.symm)
    | decided hdecided hnoted' => exact ⟨s, decided_feedAll hdecided.done cs, .decided hdecided hnoted'⟩

theorem atEnd_reached (h : Reached p free n cursor []) (hnoted : Noted p free cursor before firstFree) :
    (∃ firstFree', (floored floor (underway p rest n cursor last firstFree)).atEnd =
        (floored floor (underway p rest n cursor last firstFree')).enter rest ∧ FirstIn free p n none ∧
        (firstFree' = before ∧ (∀ x, ¬ free x) ∨ NotedHere p free before firstFree')) ∨
      Decided p free n (floored floor (underway p rest n cursor last firstFree)).atEnd ∧
        NotedHere p free before (floored floor (underway p rest n cursor last firstFree)).atEnd.firstFree := by
  have hfree : ∀ x, cursor ≤ x → x ≤ cidrLastAddr p → free x :=
    fun x hx hx' => (h.ahead x hx).mpr ⟨hx', by simp [seen]⟩
  have hend : ∀ x, cursor ≤ x → cidrLastAddr p < x → ¬ free x := by
    intro x hx hx' hf
    have := ((h.ahead x hx).mp hf).1
    omega
  by_cases hle : cursor ≤ cidrLastAddr p
  · have hnote := hnoted.note (hfree cursor le_rfl hle)
    have htry := @tryFit_decides p rest n cursor floor last (firstFree.or (some (cursor, p.bits))) free _ h.noneBelow
      hfree
    have hatEnd : (floored floor (underway p rest n cursor last firstFree)).atEnd =
        match (floored floor (underway p rest n cursor last (firstFree.or (some (cursor, p.bits))))).tryFit cursor
          (cidrLastAddr p) with
        | some s => s
        | none => (floored floor (underway p rest n cursor last (firstFree.or (some (cursor, p.bits))))).enter rest := by
      refine (if_pos hle).trans ?_
      simp only [noteFirstFree_underway]
      rfl
    rw [hatEnd]
    cases hfit : (floored floor (underway p rest n cursor last (firstFree.or (some (cursor, p.bits))))).tryFit cursor
        (cidrLastAddr p) with
    | some s =>
      rw [hfit] at htry
      refine Or.inr ⟨htry.1, ?_⟩
      dsimp only
      rw [htry.2]
      exact hnote
    | none =>
      rw [hfit] at htry
      refine Or.inl ⟨_, rfl, ?_, .inr hnote⟩
      intro htakes
      have hend' : ∀ x, cidrLastAddr p < x → ¬ free x := fun x hx => hend x (by omega) hx
      exact (h.noneBelow htakes).answer_none (unitOf_pos p n) hend' (htry htakes)
  · refine Or.inl ⟨firstFree, if_neg hle, ?_, ?_⟩
    · intro htakes start hfits
      have hstart := h.noneBelow htakes start hfits
      have hpos := unitOf_pos p n
      exact hend start hstart (by omega) (hfits.isFree start le_rfl (by omega))
    · refine hnoted.imp_left ?_
      rintro ⟨heq, hnone⟩
      refine ⟨heq, ?_⟩
      intro x hx
      have hcx := hnone x hx
      exact hend x hcx (by omega) hx

end

end Ipam.Allocation
