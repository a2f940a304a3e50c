import Ipam.Allocation.FindBlock
import Ipam.Allocation.Scan

namespace Ipam.Allocation

open FirstFit

def Valid (p : Cidr) (n : ℤ) : Prop :=
  p.len ≤ n ∧ n ≤ p.family.bits

instance (p : Cidr) (n : ℤ) : Decidable (Valid p n) :=
  inferInstanceAs (Decidable (_ ∧ _))

theorem Valid.toNat_le {p : Cidr} {n : ℤ} (h : Valid p n) : n.toNat ≤ p.family.bits := by
  have := h.2
  omega

theorem valid_iff (p : Cidr) (n : ℤ) : Valid p n ↔ ¬ (n < p.net.ones ∨ (p.net.bits.bits : ℤ) < n) := by
  have hones : p.net.ones = p.len := rfl
  have hbits : p.net.bits = p.family := rfl
  rw [hones, hbits]
  simp only [Valid]
  omega

def wantedSize (p : Cidr) (n : ℤ) : ℕ :=
  blockSize n.toNat p.family.bits

theorem wantedSize_pos (p : Cidr) (n : ℤ) : 0 < wantedSize p n :=
  blockSize_pos _ _

def Lowest (p : Cidr) (free : ℕ → Prop) (cursor : ℕ) : Option (ℕ × Family) → Prop
  | none => ∀ x, free x → cursor ≤ x
  | some (a, f) => f = p.family ∧ free a ∧ ∀ x, free x → a ≤ x

structure Sound (p : Cidr) (free : ℕ → Prop) (lo : ℕ) (n : ℤ) (cursor : ℕ) (firstFree : Option (ℕ × Family)) : Prop where
  lo_le : lo ≤ cursor
  le_last : cursor ≤ p.last + 1
  noneBelow : Valid p n → NoneBelow free (wantedSize p n) cursor
  lowest : Lowest p free cursor firstFree

structure Finished (p : Cidr) (free : ℕ → Prop) (n : ℤ) (s : Scan) : Prop where
  done : s.done = true
  found : ∀ b, s.result = some b → ∃ h : Valid p n, ∃ start, Answer free (wantedSize p n) (some start) ∧
    b = makeCIDR start n.toNat p.family h.toNat_le
  exhausted : s.result = none → Valid p n → Answer free (wantedSize p n) none
  lowest : Lowest p free (p.last + 1) s.firstFree

def scanning (p : Cidr) (n : ℤ) (floor : Option ℕ) (cursor : ℕ) (last : Option ℕ)
    (firstFree : Option (ℕ × Family)) : Scan :=
  ⟨[p.net], n, p.family, p.last, cursor, last, firstFree, floor, none, false⟩

section

variable {p : Cidr} {free : ℕ → Prop} {lo : ℕ} {n : ℤ} {floor last : Option ℕ} {cursor : ℕ}
  {firstFree : Option (ℕ × Family)}

theorem Lowest.mono {cursor' : ℕ} (h : Lowest p free cursor firstFree)
    (hnone : firstFree = none → ∀ x, free x → cursor' ≤ x) : Lowest p free cursor' firstFree := by
  cases firstFree with
  | none => exact hnone rfl
  | some a => exact h

def noted (p : Cidr) (cursor : ℕ) (firstFree : Option (ℕ × Family)) : Option (ℕ × Family) :=
  firstFree.or (some (cursor, p.family))

theorem Lowest.noted (h : Lowest p free cursor firstFree) (hfree : free cursor) (cursor' : ℕ) :
    Lowest p free cursor' (noted p cursor firstFree) := by
  cases firstFree with
  | none => exact ⟨rfl, hfree, h⟩
  | some a => exact h

theorem noteFirstFree_scanning (x : ℕ) :
    (scanning p n floor cursor last firstFree).noteFirstFree x =
      scanning p n floor cursor last (noted p x firstFree) := by
  cases firstFree <;> rfl

theorem tryFit_scanning (lo hi : ℕ) :
    (scanning p n floor cursor last firstFree).tryFit lo hi =
      if h : Valid p n then
        (startIn (wantedSize p n) ⟨lo, hi⟩).map fun start =>
          { scanning p n floor cursor last firstFree with
            result := some (makeCIDR start n.toNat p.family h.toNat_le), done := true }
      else none := by
  by_cases h : Valid p n
  · have h' := (valid_iff p n).mp h
    have hfit := fitIn_eq_map p.family n.toNat h.toNat_le ⟨lo, hi⟩
    have htry : (scanning p n floor cursor last firstFree).tryFit lo hi =
        (fitIn p.family n.toNat h.toNat_le lo hi).map fun block =>
          { scanning p n floor cursor last firstFree with result := some block, done := true } := dif_neg h'
    rw [dif_pos h, htry, hfit, Option.map_map]
    rfl
  · have h' : n < p.net.ones ∨ (p.net.bits.bits : ℤ) < n := by
      by_contra hc
      exact h ((valid_iff p n).mpr hc)
    rw [dif_neg h]
    exact dif_pos h'

theorem feedOne_net {c : Cidr} (hf : c.family = p.family) (hp : c.addr ≤ p.last) :
    (scanning p n floor cursor last firstFree).feedOne c.net =
      if last.any fun l => c.addr < l then .error .scanOutOfOrder
      else if c.last < cursor then .ok (scanning p n floor cursor (some c.addr) firstFree)
      else if cursor < c.addr then
        match (scanning p n floor cursor (some c.addr) (noted p cursor firstFree)).tryFit cursor (c.addr - 1) with
        | some s => .ok s
        | none => .ok (scanning p n floor (max cursor (c.last + 1)) (some c.addr) (noted p cursor firstFree))
      else .ok (scanning p n floor (max cursor (c.last + 1)) (some c.addr) firstFree) := by
  have hbits : ¬ c.net.bits ≠ (scanning p n floor cursor last firstFree).bits := by
    simp only [not_not]
    exact hf
  have hend : ¬ p.last < c.addr := not_lt.mpr hp
  simp only [Scan.feedOne, if_neg hbits, Cidr.cidrBounds_net]
  by_cases hlast : (last.any fun l => c.addr < l) = true
  · rw [if_pos hlast]
    exact if_pos hlast
  rw [if_neg hlast]
  refine (if_neg hlast).trans ((if_neg hend).trans ?_)
  by_cases hbehind : c.last < cursor
  · rw [if_pos hbehind]
    exact if_pos hbehind
  rw [if_neg hbehind]
  refine (if_neg hbehind).trans ?_
  by_cases hgap : cursor < c.addr
  · rw [if_pos hgap]
    refine (if_pos hgap).trans ?_
    have hnote : (scanning p n floor cursor (some c.addr) firstFree).noteFirstFree cursor =
        scanning p n floor cursor (some c.addr) (noted p cursor firstFree) := noteFirstFree_scanning cursor
    simp only [scanning] at hnote ⊢
    rewrite [hnote]
    rfl
  · rw [if_neg hgap]
    exact if_neg hgap

def RoomBelow (p : Cidr) (free : ℕ → Prop) (n : ℤ) (bound : ℕ) : Prop :=
  Valid p n ∧ ∃ start, start < bound ∧ Fits free (wantedSize p n) start

structure Fed (p : Cidr) (free : ℕ → Prop) (lo : ℕ) (n : ℤ) (cursor : ℕ) (bs rest : List Cidr) (cursor' : ℕ)
    (firstFree' : Option (ℕ × Family)) : Prop where
  sound : Sound p free lo n cursor' firstFree'
  ahead : Ahead free p.last cursor' (rest.map Cidr.range)
  le : cursor ≤ cursor'
  stop : cursor' = cursor ∨ ∃ b ∈ bs, cursor' = b.last + 1
  behind : ∀ b ∈ bs, b.last < cursor'

theorem feedOne_spec {c : Cidr} {rest : List Cidr} (hf : c.family = p.family) (hp : c.last ≤ p.last)
    (hlast : ∀ l, last = some l → l ≤ c.addr) (hs : Sound p free lo n cursor firstFree)
    (hsorted : Sorted ((c :: rest).map Cidr.range))
    (hahead : Ahead free p.last cursor ((c :: rest).map Cidr.range)) :
    ∃ s, (scanning p n floor cursor last firstFree).feedOne c.net = .ok s ∧
      ((∃ cursor' firstFree', s = scanning p n floor cursor' (some c.addr) firstFree' ∧
          Fed p free lo n cursor [c] rest cursor' firstFree') ∨
        (Finished p free n s ∧ RoomBelow p free n c.addr)) := by
  have horder : ¬ (last.any fun l => c.addr < l) = true := by
    cases last with
    | none => simp
    | some l => simpa using hlast l rfl
  have hle := c.addr_le_last
  have hpast : Ahead free p.last (max cursor (c.last + 1)) (rest.map Cidr.range) := hahead.pass
  rw [feedOne_net hf (hle.trans hp), if_neg horder]
  by_cases hbehind : c.last < cursor
  · rw [if_pos hbehind]
    rw [max_eq_left hbehind] at hpast
    refine ⟨_, rfl, Or.inl ⟨cursor, firstFree, rfl, hs, hpast, le_rfl, Or.inl rfl, ?_⟩⟩
    simpa using hbehind
  rw [if_neg hbehind]
  rw [max_eq_right (by omega)] at hpast ⊢
  have hfed : ∀ firstFree', Lowest p free (c.last + 1) firstFree' →
      (cursor < c.addr → Valid p n →
        c.addr - 1 < Dyadic.ceil cursor (wantedSize p n) + wantedSize p n - 1) →
      Fed p free lo n cursor [c] rest (c.last + 1) firstFree' := by
    intro firstFree' hlow hgap
    refine ⟨⟨by have := hs.lo_le; omega, by omega, ?_, hlow⟩, hpast, by omega, Or.inr ⟨c, by simp⟩, by simp⟩
    intro hv
    exact hahead.noneBelow (wantedSize_pos p n) hle (hs.noneBelow hv) fun hlt => hgap hlt hv
  by_cases hgap : cursor < c.addr
  · have hfree : ∀ x, cursor ≤ x → x < c.addr → free x := by
      intro x hx hx'
      exact hahead.gap hsorted (by simp only [Cidr.range]; omega) hx hx'
    have hlow : ∀ y, Lowest p free y (noted p cursor firstFree) :=
      hs.lowest.noted (hfree cursor le_rfl hgap)
    rw [if_pos hgap, tryFit_scanning]
    by_cases hv : Valid p n
    · rw [dif_pos hv]
      simp only [startIn]
      by_cases hfit : Dyadic.ceil cursor (wantedSize p n) + wantedSize p n - 1 ≤ c.addr - 1
      · rw [if_pos hfit]
        have hans := (hs.noneBelow hv).answer_gap (wantedSize_pos p n)
          (fun x hx hx' => hfree x hx (by omega)) hfit
        have hpos := wantedSize_pos p n
        refine ⟨_, rfl, Or.inr ⟨⟨rfl, ?_, ?_, hlow _⟩, hv, _, ?_, hans.1⟩⟩
        · intro b hb
          exact ⟨hv, _, hans, (Option.some.inj hb).symm⟩
        · intro hb
          cases hb
        · omega
      · rw [if_neg hfit]
        exact ⟨_, rfl, Or.inl ⟨_, _, rfl, hfed _ (hlow _) fun _ _ => by omega⟩⟩
    · rw [dif_neg hv]
      exact ⟨_, rfl, Or.inl ⟨_, _, rfl, hfed _ (hlow _) fun _ h => absurd h hv⟩⟩
  · rw [if_neg hgap]
    refine ⟨_, rfl, Or.inl ⟨_, _, rfl, hfed _ ?_ fun h => absurd h hgap⟩⟩
    apply hs.lowest.mono
    rintro rfl x hx
    by_contra hlt
    exact hahead.taken (hs.lowest x hx) ⟨by simp only [Cidr.range]; have := hs.lowest x hx; omega,
      by simp only [Cidr.range]; omega⟩ hx

theorem Fed.cons {c : Cidr} {bs rest : List Cidr} {cursor' cursor'' : ℕ}
    {firstFree' firstFree'' : Option (ℕ × Family)} (h : Fed p free lo n cursor [c] (bs ++ rest) cursor' firstFree')
    (h' : Fed p free lo n cursor' bs rest cursor'' firstFree'') :
    Fed p free lo n cursor (c :: bs) rest cursor'' firstFree'' := by
  have hc := h.behind c List.mem_cons_self
  refine ⟨h'.sound, h'.ahead, h.le.trans h'.le, ?_, ?_⟩
  · rcases h'.stop with heq | ⟨b, hb, hstop⟩
    · rcases h.stop with heq' | ⟨b, hb, hstop⟩
      · exact Or.inl (heq.trans heq')
      · obtain rfl := List.mem_singleton.mp hb
        exact Or.inr ⟨b, List.mem_cons_self, heq.trans hstop⟩
    · exact Or.inr ⟨b, List.mem_cons_of_mem _ hb, hstop⟩
  · intro b hb
    rcases List.mem_cons.mp hb with rfl | hb
    · exact hc.trans_le h'.le
    · exact h'.behind b hb

theorem feedAll_spec {bs rest : List Cidr} (hin : ∀ b ∈ bs, b.family = p.family ∧ b.last ≤ p.last)
    (hlast : ∀ l, last = some l → ∀ b ∈ bs, l ≤ b.addr) (hs : Sound p free lo n cursor firstFree)
    (hsorted : Sorted ((bs ++ rest).map Cidr.range))
    (hahead : Ahead free p.last cursor ((bs ++ rest).map Cidr.range)) :
    ∃ s, (scanning p n floor cursor last firstFree).feedAll (bs.map Cidr.net) = .ok s ∧
      ((∃ cursor' firstFree',
          s = scanning p n floor cursor' ((bs.getLast?.map Cidr.addr).or last) firstFree' ∧
          Fed p free lo n cursor bs rest cursor' firstFree') ∨
        (Finished p free n s ∧ ∃ b ∈ bs, RoomBelow p free n b.addr)) := by
  induction bs generalizing cursor last firstFree with
  | nil => exact ⟨_, rfl, Or.inl ⟨cursor, firstFree, rfl, hs, hahead, le_rfl, Or.inl rfl, by simp⟩⟩
  | cons c bs ih =>
    have hc := hin c List.mem_cons_self
    obtain ⟨s, hone, hcase⟩ := @feedOne_spec p free lo n floor last cursor firstFree c (bs ++ rest) hc.1 hc.2
      (fun l hl => hlast l hl c List.mem_cons_self) hs hsorted hahead
    have hfeed : (scanning p n floor cursor last firstFree).feedAll ((c :: bs).map Cidr.net) =
        s.feedAll (bs.map Cidr.net) := by
      simp only [List.map_cons, Scan.feedAll, hone]
      rfl
    rw [hfeed]
    rcases hcase with ⟨cursor', firstFree', rfl, hfed⟩ | ⟨hfin, hroom⟩
    · have hsorted' := List.pairwise_cons.mp hsorted
      have hlast' : ∀ l, some c.addr = some l → ∀ b ∈ bs, l ≤ b.addr := by
        intro l hl b hb
        obtain rfl := Option.some.inj hl
        exact hsorted'.1 b.range (List.mem_map_of_mem (List.mem_append_left _ hb))
      obtain ⟨s, hs', hcase⟩ := ih (fun b hb => hin b (List.mem_cons_of_mem _ hb)) hlast' hfed.sound hsorted'.2
        hfed.ahead
      refine ⟨s, hs', ?_⟩
      rcases hcase with ⟨cursor'', firstFree'', rfl, hfed'⟩ | ⟨hfin, b, hb, hroom⟩
      · refine Or.inl ⟨cursor'', firstFree'', ?_, hfed.cons hfed'⟩
        congr 1
        cases h : bs.getLast? <;> simp [List.getLast?_cons, h]
      · exact Or.inr ⟨hfin, b, List.mem_cons_of_mem _ hb, hroom⟩
    · refine ⟨s, ?_, Or.inr ⟨hfin, c, List.mem_cons_self, hroom⟩⟩
      cases bs with
      | nil => rfl
      | cons b bs => simp only [List.map_cons, Scan.feedAll, hfin.done, if_true]

theorem feedAll_behind {bs : List Cidr} (hin : ∀ b ∈ bs, b.family = p.family ∧ b.last ≤ p.last)
    (hcursor : ∀ b ∈ bs, b.last < cursor) :
    (scanning p n floor cursor last firstFree).feedAll (bs.map Cidr.net) = .error .scanOutOfOrder ∨
      ∃ last', (scanning p n floor cursor last firstFree).feedAll (bs.map Cidr.net) =
        .ok (scanning p n floor cursor last' firstFree) := by
  induction bs generalizing last with
  | nil => exact Or.inr ⟨last, rfl⟩
  | cons c bs ih =>
    have hc := hin c List.mem_cons_self
    have hone := @feedOne_net p n floor last cursor firstFree c hc.1 (c.addr_le_last.trans hc.2)
    rw [if_pos (hcursor c List.mem_cons_self)] at hone
    by_cases horder : (last.any fun l => c.addr < l) = true
    · rw [if_pos horder] at hone
      left
      simp only [List.map_cons, Scan.feedAll, hone]
      rfl
    · rw [if_neg horder] at hone
      have hfeed : (scanning p n floor cursor last firstFree).feedAll ((c :: bs).map Cidr.net) =
          (scanning p n floor cursor (some c.addr) firstFree).feedAll (bs.map Cidr.net) := by
        simp only [List.map_cons, Scan.feedAll, hone]
        rfl
      rw [hfeed]
      exact ih (fun b hb => hin b (List.mem_cons_of_mem _ hb)) fun b hb => hcursor b (List.mem_cons_of_mem _ hb)

theorem feed_scanning (bs : List IPNet) :
    (scanning p n floor cursor last firstFree).feed bs = (scanning p n floor cursor last firstFree).feedAll bs := rfl

theorem need_scanning :
    (scanning p n floor cursor last firstFree).need = some (p.net, intToIP cursor p.family) := rfl

theorem atEnd_scanning :
    (scanning p n floor cursor last firstFree).atEnd =
      if cursor ≤ p.last then
        match (scanning p n floor cursor last (noted p cursor firstFree)).tryFit cursor p.last with
        | some s => s
        | none => (scanning p n floor cursor last (noted p cursor firstFree)).advanceParent
      else (scanning p n floor cursor last firstFree).advanceParent := by
  have hlast : (cidrBounds p.net).2 = p.last := by rw [Cidr.cidrBounds_net]
  by_cases hle : cursor ≤ p.last
  · rw [if_pos hle]
    have hle' : cursor ≤ (cidrBounds p.net).2 := by rwa [hlast]
    refine (if_pos hle').trans ?_
    simp only [Cidr.cidrBounds_net, noteFirstFree_scanning]
    rfl
  · rw [if_neg hle]
    have hle' : ¬ cursor ≤ (cidrBounds p.net).2 := by rwa [hlast]
    exact if_neg hle'

theorem atEnd_spec (hs : Sound p free lo n cursor firstFree) (hahead : Ahead free p.last cursor []) :
    Finished p free n (scanning p n floor cursor last firstFree).atEnd := by
  have hdone : ∀ firstFree', Lowest p free (p.last + 1) firstFree' →
      (Valid p n → Answer free (wantedSize p n) none) →
      Finished p free n (scanning p n floor cursor last firstFree').advanceParent := by
    intro firstFree' hlow hans
    refine ⟨rfl, ?_, fun _ => hans, hlow⟩
    intro b hb
    cases hb
  have hpos := wantedSize_pos p n
  have hend : ∀ x, p.last < x → ¬ free x := by
    intro x hx hf
    have := ((hahead x (hs.le_last.trans hx)).mp hf).1
    omega
  by_cases hle : cursor ≤ p.last
  · have hfree : ∀ x, cursor ≤ x → x ≤ p.last → free x := by
      intro x hx hx'
      exact (hahead x hx).mpr ⟨hx', by simp⟩
    have hlow : ∀ y, Lowest p free y (noted p cursor firstFree) := hs.lowest.noted (hfree cursor le_rfl hle)
    rw [atEnd_scanning, if_pos hle, tryFit_scanning]
    by_cases hv : Valid p n
    · rw [dif_pos hv]
      simp only [startIn]
      by_cases hfit : Dyadic.ceil cursor (wantedSize p n) + wantedSize p n - 1 ≤ p.last
      · rw [if_pos hfit]
        have hans := (hs.noneBelow hv).answer_gap hpos hfree hfit
        refine ⟨rfl, ?_, ?_, hlow _⟩
        · intro b hb
          exact ⟨hv, _, hans, (Option.some.inj hb).symm⟩
        · intro hb
          cases hb
      · rw [if_neg hfit]
        exact hdone _ (hlow _) fun _ => (hs.noneBelow hv).answer_none hpos hend (by omega)
    · rw [dif_neg hv]
      exact hdone _ (hlow _) fun h => absurd h hv
  · rw [atEnd_scanning, if_neg hle]
    obtain rfl : cursor = p.last + 1 := by have := hs.le_last; omega
    refine hdone _ hs.lowest fun hv start hfits => ?_
    exact hend start (by have := hs.noneBelow hv start hfits; omega) (hfits.isFree start le_rfl (by omega))

def startOf (p : Cidr) (floor : Option IP) : ℕ :=
  max p.addr ((floor.map ipToInt).getD 0)

theorem newScan_spec {hint : Option IP} (hlow : ∀ x, free x → startOf p hint ≤ x)
    (hhigh : ∀ x, free x → x ≤ p.last) :
    ∃ s, Scan.newScan [p.net] n hint = .ok s ∧
      ((s = scanning p n (hint.map ipToInt) (startOf p hint) none none ∧
          Sound p free (startOf p hint) n (startOf p hint) none) ∨ Finished p free n s) := by
  have hnone : NoneBelow free (wantedSize p n) (startOf p hint) := by
    apply NoneBelow.of_not_free (wantedSize_pos p n)
    intro x hx hf
    have := hlow x hf
    omega
  have hnew : Scan.newScan [p.net] n hint =
      .ok (Scan.enter ⟨[], n, .v4, 0, 0, none, none, hint.map ipToInt, none, false⟩ [p.net]) := rfl
  refine ⟨_, hnew, ?_⟩
  simp only [Scan.enter, Cidr.cidrBounds_net]
  have hstart : startOf p hint ≤ p.last →
      Sound p free (startOf p hint) n (startOf p hint) none := fun h => ⟨le_rfl, by omega, fun _ => hnone, hlow⟩
  cases hint with
  | none =>
    have heq : startOf p none = p.addr := by simp [startOf]
    rw [heq] at hstart ⊢
    exact Or.inl ⟨rfl, hstart p.addr_le_last⟩
  | some ip =>
    have heq : startOf p (some ip) = max p.addr (ipToInt ip) := rfl
    simp only [Option.map_some]
    by_cases hlt : p.last < ipToInt ip
    · rw [if_pos hlt]
      have hempty : ∀ x, ¬ free x := by
        intro x hx
        have := hlow x hx
        have := hhigh x hx
        rw [heq] at *
        omega
      refine Or.inr ⟨rfl, ?_, ?_, fun x hx => absurd hx (hempty x)⟩
      · intro b hb
        cases hb
      · intro _ _ start hfits
        exact hempty start (hfits.isFree start le_rfl (by have := wantedSize_pos p n; omega))
    · rw [if_neg hlt]
      refine Or.inl ⟨rfl, hstart ?_⟩
      rw [heq]
      have := p.addr_le_last
      omega

end

def FreeFrom (p : Cidr) (cs : List Cidr) (lo x : ℕ) : Prop :=
  lo ≤ x ∧ x ≤ p.last ∧ ∀ c ∈ cs, ¬ c.Mem p.family x

theorem FreeFrom.free {p : Cidr} {cs : List Cidr} {lo x : ℕ} (hlo : p.addr ≤ lo) (h : FreeFrom p cs lo x) :
    Free p cs x :=
  ⟨hlo.trans h.1, h.2⟩

def FloorBelow (p : Cidr) (cs : List Cidr) (floor : Option IP) : Prop :=
  ∀ ip, floor = some ip → ∀ x, Free p cs x → ipToInt ip ≤ x

theorem addr_le_startOf (p : Cidr) (floor : Option IP) : p.addr ≤ startOf p floor :=
  le_max_left _ _

theorem FloorBelow.freeFrom_eq {p : Cidr} {cs : List Cidr} {floor : Option IP} (h : FloorBelow p cs floor) :
    FreeFrom p cs (startOf p floor) = Free p cs := by
  funext x
  apply propext
  constructor
  · exact FreeFrom.free (addr_le_startOf p floor)
  · intro hx
    refine ⟨?_, hx.2⟩
    cases floor with
    | none => simpa [startOf] using hx.1
    | some ip => exact max_le hx.1 (h ip rfl x hx)

end Ipam.Allocation
