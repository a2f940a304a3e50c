import Ipam.Allocation.ScanWhole

namespace Ipam.Allocation

namespace Scan

inductive Works (parents : List IPNet) (n : ℤ) (floor : Option IP) : Scan → IPNet → List IPNet → Prop where
  | start {s : Scan} {p : IPNet} (new : newScan parents n floor = .ok s) (undecided : s.done = false)
      (parent : s.parents.head? = some p) : Works parents n floor s p []
  | feed {s s' : Scan} {p : IPNet} {fed page : List IPNet} (before : Works parents n floor s p fed)
      (accepted : s.feed page = .ok s') (undecided : s'.done = false) : Works parents n floor s' p (fed ++ page)
  | next {s : Scan} {p p' : IPNet} {fed : List IPNet} (before : Works parents n floor s p fed)
      (undecided : s.atEnd.done = false) (parent : s.atEnd.parents.head? = some p') :
      Works parents n floor s.atEnd p' []

end Scan

def Concerns (p c : IPNet) : Prop :=
  c.bits = p.bits ∧ c.base < p.base + p.size

instance (p : IPNet) : DecidablePred (Concerns p) :=
  fun _ => inferInstanceAs (Decidable (_ ∧ _))

def marks (p : IPNet) (floor : Option IP) (fed : List IPNet) : List ℕ :=
  p.base :: (floor.map ipToInt).toList ++ (fed.filter fun c => Concerns p c).map fun c => c.base + c.size

def frontier (p : IPNet) (floor : Option IP) (fed : List IPNet) : ℕ :=
  (marks p floor fed).foldl max 0

def Readable (f : Family) (x : ℕ) : Prop :=
  x < 2 ^ f.bits ∧ ¬ Mapped f x

instance (f : Family) (x : ℕ) : Decidable (Readable f x) :=
  inferInstanceAs (Decidable (_ ∧ _))

section

variable {p c : IPNet} {floor : Option IP} {fed more : List IPNet}

theorem foldl_max (a : ℕ) (xs : List ℕ) : xs.foldl max a = max a (xs.foldl max 0) := by
  induction xs generalizing a with
  | nil => simp
  | cons x xs ih =>
    rw [List.foldl_cons, List.foldl_cons, ih (max a x), ih (max 0 x)]
    omega

theorem frontier_append :
    frontier p floor (fed ++ more) =
      max (frontier p floor fed) (((more.filter fun c => Concerns p c).map fun c => c.base + c.size).foldl max 0) := by
  have hmarks : marks p floor (fed ++ more) =
      marks p floor fed ++ (more.filter fun c => Concerns p c).map fun c => c.base + c.size := by
    simp only [marks, List.filter_append, List.map_append, List.append_assoc]
  rw [frontier, hmarks, List.foldl_append, foldl_max]
  rfl

theorem frontier_nil : frontier p floor [] = max p.base ((floor.map ipToInt).getD 0) := by
  cases floor <;> simp [frontier, marks]

theorem le_frontier_append : frontier p floor fed ≤ frontier p floor (fed ++ more) := by
  rw [frontier_append]
  exact le_max_left _ _

theorem frontier_concerns (h : Concerns p c) : frontier p floor (fed ++ [c]) = max (frontier p floor fed) (c.base + c.size) := by
  rw [frontier_append]
  simp [h]

theorem frontier_other (h : ¬ Concerns p c) : frontier p floor (fed ++ [c]) = frontier p floor fed := by
  rw [frontier_append]
  simp [h]

theorem end_le_frontier (hc : c ∈ fed) (h : Concerns p c) : c.base + c.size ≤ frontier p floor fed := by
  obtain ⟨before, after, rfl⟩ := List.append_of_mem hc
  have heq : before ++ c :: after = (before ++ [c]) ++ after := by simp
  rw [heq]
  refine le_trans ?_ le_frontier_append
  rw [frontier_concerns h]
  exact le_max_right _ _

theorem ipToInt_intToIP_iff (x : ℕ) (f : Family) : ipToInt (intToIP x f) = x ↔ Readable f x := by
  by_cases hlt : x < 2 ^ f.bits
  · have hip : intToIP x f = ⟨f, x, hlt⟩ := dif_pos hlt
    rw [hip, Readable, and_iff_right hlt]
    cases f with
    | v4 => simp [ipToInt, IP.to4, Mapped]
    | v6 =>
      by_cases hmapped : x / 2 ^ 32 = v4InV6Prefix
      · have hrange := (mapped_iff_div x).mp hmapped
        have hstart := pow_le_mappedStart
        have hmod := Nat.mod_lt x (show 0 < 2 ^ 32 by positivity)
        simp only [ipToInt, IP.to4, if_pos hmapped]
        refine iff_of_false (by omega) ?_
        exact not_not.mpr ⟨rfl, hrange⟩
      · simp only [ipToInt, IP.to4, if_neg hmapped, true_iff]
        exact fun h => hmapped ((mapped_iff_div x).mpr h.2)
  · have hip : intToIP x f = ⟨f, 0, by positivity⟩ := dif_neg hlt
    have hpos : 0 < 2 ^ f.bits := by positivity
    have hzero : ipToInt (intToIP x f) = 0 := by
      rw [hip]
      cases f with
      | v4 => rfl
      | v6 => simp [ipToInt, IP.to4, v4InV6Prefix]
    rw [hzero, Readable]
    exact iff_of_false (by omega) fun h => hlt h.1

end

namespace Scan

structure Stays (s s' : Scan) : Prop where
  parents : s'.parents = s.parents
  bits : s'.bits = s.bits
  pEnd : s'.pEnd = s.pEnd
  floor : s'.floor = s.floor

theorem Stays.refl (s : Scan) : Stays s s :=
  ⟨rfl, rfl, rfl, rfl⟩

theorem noteFirstFree_stays (s : Scan) (x : ℕ) :
    Stays s (s.noteFirstFree x) ∧ (s.noteFirstFree x).cursor = s.cursor ∧ (s.noteFirstFree x).done = s.done := by
  unfold noteFirstFree
  split
  · exact ⟨.refl s, rfl, rfl⟩
  · exact ⟨⟨rfl, rfl, rfl, rfl⟩, rfl, rfl⟩

theorem tryFit_done {s s' : Scan} {lo hi : ℕ} (h : s.tryFit lo hi = some s') : s'.done = true := by
  unfold tryFit at h
  split at h
  · cases h
  · split at h
    · cases h
    · obtain ⟨block, -, rfl⟩ := Option.map_eq_some_iff.mp h
      rfl

def passed (s : Scan) (c : IPNet) : ℕ :=
  if c.bits = s.bits ∧ cidrFirstAddr c ≤ s.pEnd then max s.cursor (cidrLastAddr c + 1) else s.cursor

theorem feedOne_passed {s s' : Scan} {c : IPNet} (h : s.feedOne c = .ok s') (hdone : s'.done = false) :
    Stays s s' ∧ s'.cursor = s.passed c := by
  by_cases hbits : c.bits = s.bits
  · simp only [feedOne, if_neg (not_not.mpr hbits)] at h
    by_cases horder : (s.last.any fun last => (cidrBounds c).1 < last) = true
    · rw [if_pos horder] at h
      cases h
    rw [if_neg horder] at h
    by_cases habove : s.pEnd < (cidrBounds c).1
    · rw [if_pos habove] at h
      obtain rfl := Except.ok.inj h
      exact ⟨⟨rfl, rfl, rfl, rfl⟩, (if_neg fun hc => absurd hc.2 (not_le.mpr habove)).symm⟩
    rw [if_neg habove] at h
    have hpassed : s.passed c = max s.cursor (cidrLastAddr c + 1) := if_pos ⟨hbits, not_lt.mp habove⟩
    rw [hpassed]
    by_cases hbehind : (cidrBounds c).2 < s.cursor
    · rw [if_pos hbehind] at h
      obtain rfl := Except.ok.inj h
      exact ⟨⟨rfl, rfl, rfl, rfl⟩, (max_eq_left hbehind).symm⟩
    rw [if_neg hbehind] at h
    by_cases hgap : s.cursor < (cidrBounds c).1
    · rw [if_pos hgap] at h
      obtain ⟨hstays, hcursor, -⟩ := noteFirstFree_stays { s with last := some (cidrBounds c).1 } s.cursor
      split at h
      · rename_i hfit
        obtain rfl := Except.ok.inj h
        rw [tryFit_done hfit] at hdone
        cases hdone
      · obtain rfl := Except.ok.inj h
        refine ⟨⟨hstays.parents, hstays.bits, hstays.pEnd, hstays.floor⟩, ?_⟩
        change max (noteFirstFree _ _).cursor _ = _
        rw [hcursor]
        rfl
    · rw [if_neg hgap] at h
      obtain rfl := Except.ok.inj h
      exact ⟨⟨rfl, rfl, rfl, rfl⟩, rfl⟩
  · simp only [feedOne, if_pos hbits] at h
    obtain rfl := Except.ok.inj h
    exact ⟨.refl s, (if_neg fun hc => hbits hc.1).symm⟩

structure Standing (p : IPNet) (floor : Option IP) (fed : List IPNet) (s : Scan) : Prop where
  undecided : s.done = false
  parent : s.parents.head? = some p
  bits : s.bits = p.bits
  pEnd : s.pEnd = cidrLastAddr p
  hint : s.floor = floor.map ipToInt
  cursor : p.Native → (∀ c ∈ fed, c.Native) → s.cursor = frontier p floor fed

variable {parents : List IPNet} {n : ℤ} {floor : Option IP} {s s' : Scan} {p : IPNet} {fed : List IPNet}

theorem Standing.feedOne {c : IPNet} (h : Standing p floor fed s) (hone : s.feedOne c = .ok s')
    (hdone : s'.done = false) : Standing p floor (fed ++ [c]) s' := by
  obtain ⟨hstays, hcursor⟩ := feedOne_passed hone hdone
  refine ⟨hdone, hstays.parents ▸ h.parent, hstays.bits.trans h.bits, hstays.pEnd.trans h.pEnd,
    hstays.floor.trans h.hint, ?_⟩
  intro hp hfed
  have hc : c.Native := hfed c (by simp)
  have hpos := c.size_pos
  have hpos' := p.size_pos
  have hold := h.cursor hp fun d hd => hfed d (List.mem_append_left _ hd)
  have hcode : c.bits = s.bits ∧ cidrFirstAddr c ≤ s.pEnd ↔ Concerns p c := by
    rw [h.bits, h.pEnd, IPNet.cidrLastAddr_eq, hc.first, hp.first, Concerns]
    exact and_congr_right fun _ => by omega
  have hlast : cidrLastAddr c + 1 = c.base + c.size := by
    rw [IPNet.cidrLastAddr_eq, hc.first]
    omega
  rw [hcursor, passed, hold, hlast]
  by_cases hconcerns : Concerns p c
  · rw [if_pos (hcode.mpr hconcerns), frontier_concerns hconcerns]
  · rw [if_neg fun h => hconcerns (hcode.mp h), frontier_other hconcerns]

theorem Standing.feedAll {page : List IPNet} (h : Standing p floor fed s) (hfeed : s.feedAll page = .ok s')
    (hdone : s'.done = false) : Standing p floor (fed ++ page) s' := by
  induction page generalizing s fed with
  | nil =>
    obtain rfl := Except.ok.inj hfeed
    rwa [List.append_nil]
  | cons c page ih =>
    simp only [Scan.feedAll, h.undecided, Bool.false_eq_true, if_false] at hfeed
    cases hone : s.feedOne c with
    | error e =>
      rw [hone] at hfeed
      cases hfeed
    | ok t =>
      rw [hone] at hfeed
      cases hdecided : t.done with
      | true =>
        -- once decided the scan takes in nothing more
        obtain rfl := Except.ok.inj ((decided_feedAll hdecided page).symm.trans hfeed)
        rw [hdone] at hdecided
        cases hdecided
      | false =>
        have hnext := ih (h.feedOne hone hdecided) hfeed
        rwa [List.append_assoc] at hnext

theorem enter_standing {ps : List IPNet} (hfloor : s.floor = floor.map ipToInt) (hundecided : s.done = false)
    (hdone : (s.enter ps).done = false) (hp : (s.enter ps).parents.head? = some p) :
    Standing p floor [] (s.enter ps) := by
  induction ps with
  | nil => cases hdone
  | cons q rest ih =>
    cases hfl : floor.map ipToInt with
    | none =>
      have henter : s.enter (q :: rest) =
          { s with parents := q :: rest, bits := q.bits, pEnd := cidrLastAddr q, cursor := cidrFirstAddr q, last := none } := by
        simp only [enter, hfloor, hfl]
        rfl
      rw [henter] at hp ⊢
      obtain rfl : q = p := by simpa using hp
      refine ⟨hundecided, rfl, rfl, rfl, hfloor, ?_⟩
      intro hq _
      simp only [frontier_nil, hfl, Option.getD_none]
      rw [hq.first]
      omega
    | some x =>
      have henter : s.enter (q :: rest) = if cidrLastAddr q < x then s.enter rest else
          { s with
            parents := q :: rest, bits := q.bits, pEnd := cidrLastAddr q, cursor := max (cidrFirstAddr q) x,
            last := none } := by
        simp only [enter, hfloor, hfl]
        rfl
      rw [henter] at hdone hp ⊢
      split at hdone
      · rename_i hbelow
        rw [if_pos hbelow] at hp ⊢
        exact ih hdone hp
      · rename_i hreach
        rw [if_neg hreach] at hp ⊢
        obtain rfl : q = p := by simpa using hp
        refine ⟨hundecided, rfl, rfl, rfl, hfloor, ?_⟩
        intro hq _
        simp only [frontier_nil, hfl, Option.getD_some]
        rw [hq.first]

theorem Standing.atEnd_enter (h : Standing p floor fed s) (hdone : s.atEnd.done = false) :
    ∃ t : Scan, t.floor = s.floor ∧ t.done = false ∧ s.atEnd = t.enter t.parents.tail := by
  cases hparents : s.parents with
  | nil =>
    have hp := h.parent
    rw [hparents] at hp
    cases hp
  | cons q rest =>
    by_cases hle : s.cursor ≤ (cidrBounds q).2
    · obtain ⟨hstays, -, hsame⟩ := noteFirstFree_stays s s.cursor
      cases hfit : (s.noteFirstFree s.cursor).tryFit (s.noteFirstFree s.cursor).cursor (cidrBounds q).2 with
      | some t =>
        have hatEnd : s.atEnd = t := by
          simp only [atEnd, h.undecided, Bool.false_eq_true, if_false, hparents, if_pos hle, hfit]
        rw [hatEnd, tryFit_done hfit] at hdone
        cases hdone
      | none =>
        have hatEnd : s.atEnd = (s.noteFirstFree s.cursor).advanceParent := by
          simp only [atEnd, h.undecided, Bool.false_eq_true, if_false, hparents, if_pos hle, hfit]
        exact ⟨_, hstays.floor, hsame.trans h.undecided, hatEnd⟩
    · refine ⟨s, rfl, h.undecided, ?_⟩
      simp only [atEnd, h.undecided, Bool.false_eq_true, if_false, hparents, if_neg hle, advanceParent]

theorem Works.standing (h : Works parents n floor s p fed) : Standing p floor fed s := by
  induction h with
  | start hnew hdone hp =>
    simp only [newScan] at hnew
    split at hnew
    · cases hnew
    · obtain rfl := Except.ok.inj hnew
      exact enter_standing rfl rfl hdone hp
  | feed _ hfeed hdone ih =>
    simp only [Scan.feed, ih.undecided, Bool.false_eq_true, if_false] at hfeed
    exact ih.feedAll hfeed hdone
  | next _ hdone hp ih =>
    obtain ⟨t, hfloor, hundecided, heq⟩ := ih.atEnd_enter hdone
    rw [heq] at hdone hp ⊢
    exact enter_standing (hfloor.trans ih.hint) hundecided hdone hp

theorem Standing.need_eq (h : Standing p floor fed s) : s.need = some (p, intToIP s.cursor p.bits) := by
  simp only [need, h.undecided, Bool.false_eq_true, if_false, h.parent, Option.map_some, h.bits]

theorem need_frontier_iff (h : Works parents n floor s p fed) (hp : p.Native) (hfed : ∀ c ∈ fed, c.Native) :
    ((∃ a, s.need = some (p, a) ∧ ipToInt a = frontier p floor fed) ↔ Readable p.bits (frontier p floor fed)) ∧
    ∀ pages s', s.feedPages pages = .ok s' → s'.done = false → (∀ c ∈ pages.flatten, c.Native) →
      Readable p.bits (frontier p floor fed) → Readable p.bits (frontier p floor (fed ++ pages.flatten)) →
      ∃ a a', s.need = some (p, a) ∧ s'.need = some (p, a') ∧ ipToInt a ≤ ipToInt a' ∧
        ∀ c ∈ fed ++ pages.flatten, Concerns p c → c.base + c.size ≤ ipToInt a' := by
  have hstanding := h.standing
  have hread : ∀ {t : Scan} {blocks : List IPNet}, Standing p floor blocks t → (∀ c ∈ blocks, c.Native) →
      t.need = some (p, intToIP (frontier p floor blocks) p.bits) := by
    intro t blocks ht hblocks
    rw [ht.need_eq, ht.cursor hp hblocks]
  constructor
  · rw [hread hstanding hfed, ← ipToInt_intToIP_iff]
    constructor
    · rintro ⟨a, ha, heq⟩
      obtain rfl : intToIP (frontier p floor fed) p.bits = a := by simpa using ha
      exact heq
    · exact fun heq => ⟨_, rfl, heq⟩
  · intro pages s' hfeed hdone hpages hbefore hafter
    rw [feedPages_eq] at hfeed
    have hlater := hstanding.feedAll hfeed hdone
    have hall : ∀ c ∈ fed ++ pages.flatten, c.Native := List.forall_mem_append.mpr ⟨hfed, hpages⟩
    refine ⟨_, _, hread hstanding hfed, hread hlater hall, ?_, ?_⟩
    · rw [(ipToInt_intToIP_iff _ _).mpr hbefore, (ipToInt_intToIP_iff _ _).mpr hafter]
      exact le_frontier_append
    · intro c hc hconcerns
      rw [(ipToInt_intToIP_iff _ _).mpr hafter]
      exact end_le_frontier hc hconcerns

end Scan

def lastHost : IPNet :=
  ⟨⟨.v4, 2 ^ 32 - 1, by decide⟩, 32, by decide⟩

theorem need_frontier_tenNet :
    ∃ s s' a a', Scan.newScan [tenNet 0 24] 28 none = .ok s ∧ s.feedPages [[tenNet 0 30], [tenNet 4 30]] = .ok s' ∧
      s.need = some (tenNet 0 24, a) ∧ s'.need = some (tenNet 0 24, a') ∧ ipToInt a ≤ ipToInt a' := by
  obtain ⟨s, hnew, hparent, hdone⟩ : ∃ s, Scan.newScan [tenNet 0 24] 28 none = .ok s ∧
      s.parents.head? = some (tenNet 0 24) ∧ s.done = false := ⟨_, rfl, rfl, rfl⟩
  have hworks : Scan.Works [tenNet 0 24] 28 none s (tenNet 0 24) [] := .start hnew hdone hparent
  obtain rfl := Except.ok.inj hnew
  obtain ⟨a, a', ha, ha', hle, -⟩ := (Scan.need_frontier_iff hworks (by decide) (by simp)).2
    [[tenNet 0 30], [tenNet 4 30]] _ rfl rfl (by decide) (by decide) (by decide)
  exact ⟨_, _, a, a', rfl, rfl, ha, ha', hle⟩

theorem need_backwards :
    ∃ s s', Scan.newScan [lastHost] 32 none = .ok s ∧ s.feed [lastHost] = .ok s' ∧ s'.done = false ∧
      s.need = some (lastHost, ⟨.v4, 2 ^ 32 - 1, by decide⟩) ∧ s'.need = some (lastHost, ⟨.v4, 0, by decide⟩) :=
  ⟨_, _, rfl, rfl, by decide, by decide, by decide⟩

end Ipam.Allocation
