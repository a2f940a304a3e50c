import Ipam.Allocation.ScanParent

namespace Ipam.Allocation

open FirstFit

namespace Scan

def feedPages (s : Scan) : List (List IPNet) → Except Error Scan
  | [] => .ok s
  | page :: rest => if s.done then .ok s else (s.feed page).bind fun s => s.feedPages rest

def run (supply : IPNet → IP → List (List IPNet)) : ℕ → Scan → Except Error Scan
  | 0, s => .ok s
  | fuel + 1, s =>
    match s.need with
    | none => .ok s
    | some (parent, lowest) => (s.feedPages (supply parent lowest)).bind fun s => run supply fuel s.atEnd

end Scan

def scanWhole (supply : IPNet → IP → List (List IPNet)) (parents : List IPNet) (prefixLen : ℤ) : Except Error IPNet :=
  (Scan.newScan parents prefixLen none).bind fun s => (s.run supply parents.length).bind Scan.getResult

/-- What `Need` asks for: every block that ends at or above the address and starts at or below the end of the
parent, in ascending order. Other blocks may come with them. -/
structure Supplies (existing : List IPNet) (parent : IPNet) (lowest : IP) (blocks : List IPNet) : Prop where
  sub : ∀ c ∈ blocks, c ∈ existing
  all : ∀ c ∈ existing, ipToInt lowest ≤ cidrLastAddr c → cidrFirstAddr c ≤ cidrLastAddr parent → c ∈ blocks
  ascending : blocks.Pairwise fun c d => c.bits = d.bits → cidrFirstAddr c ≤ cidrFirstAddr d

theorem decided_pages {s : Scan} (h : s.done = true) (pages : List (List IPNet)) : s.feedPages pages = .ok s := by
  cases pages with
  | nil => rfl
  | cons page rest => simp only [Scan.feedPages, h, if_true]

theorem feedAll_append (s : Scan) (cs ds : List IPNet) :
    s.feedAll (cs ++ ds) = (s.feedAll cs).bind fun s => s.feedAll ds := by
  induction cs generalizing s with
  | nil => rfl
  | cons c cs ih =>
    by_cases hdone : s.done = true
    · rw [decided_feedAll hdone, decided_feedAll hdone]
      exact (decided_feedAll hdone ds).symm
    · simp only [List.cons_append, Scan.feedAll, if_neg hdone]
      cases s.feedOne c with
      | error e => rfl
      | ok t => exact ih t

theorem feedPages_eq (s : Scan) (pages : List (List IPNet)) : s.feedPages pages = s.feedAll pages.flatten := by
  induction pages generalizing s with
  | nil => rfl
  | cons page rest ih =>
    by_cases hdone : s.done = true
    · rw [decided_pages hdone, decided_feedAll hdone]
    · simp only [Scan.feedPages, if_neg hdone, Scan.feed, List.flatten_cons, feedAll_append]
      congr 1
      funext t
      exact ih t

def scanPick (existing : List IPNet) (n : ℤ) (p : IPNet) : Option IPNet :=
  (firstFitIn p (freeRegions p (existing.filter fun c => c.bits = p.bits)) n).map Fit.cidr

theorem clear_ahead (p : IPNet) (cs : List IPNet) {rs : List IPRange} (h : ∀ r, r ∈ rs ↔ r ∈ seen p cs) :
    Ahead (Clear p cs) (cidrLastAddr p) (cidrFirstAddr p) rs := by
  intro x hx
  simp only [h, seen, List.mem_map, List.mem_filter, decide_eq_true_eq]
  constructor
  · rintro ⟨hmem, hclear⟩
    refine ⟨hmem.2, ?_⟩
    rintro r ⟨c, ⟨hc, hbits⟩, rfl⟩
    exact hclear c hc hbits
  · rintro ⟨hlast, hclear⟩
    exact ⟨⟨hx, hlast⟩, fun c hc hbits hm => hclear _ ⟨c, ⟨hc, hbits⟩, rfl⟩ hm⟩

theorem firstIn_firstFitIn {free : ℕ → Prop} {p : IPNet} {regions : List IPRange} {n : ℤ}
    (h : ∀ size, 0 < size → Answer free size (regions.findSome? (startIn size))) :
    FirstIn free p n ((firstFitIn p regions n).map Fit.cidr) := by
  by_cases htakes : Takes p n
  · have hanswer := h _ (unitOf_pos p n)
    rw [firstFitIn_cidr p regions n htakes]
    change Answer free (unitOf p n) (regions.findSome? (startIn (unitOf p n))) at hanswer
    cases hfind : regions.findSome? (startIn (blockSize n.toNat p.bits.bits)) with
    | none =>
      intro _
      rw [unitOf, hfind] at hanswer
      exact hanswer
    | some start =>
      rw [unitOf, hfind] at hanswer
      exact ⟨htakes, start, hanswer, rfl⟩
  · have hnone : firstFitIn p regions n = none := by
      simp only [firstFitIn, fitsOf, dif_pos (not_not.mp htakes), List.head?_nil]
    rw [hnone]
    intro h
    exact absurd h htakes

theorem firstIn_scanPick (existing : List IPNet) (n : ℤ) (p : IPNet) :
    FirstIn (Clear p existing) p n (scanPick existing n p) := by
  apply firstIn_firstFitIn
  intro size hpos
  refine sweep_answer hpos (sortByStart_sorted _) le_rfl ?_ (clear_ahead p existing fun r => mem_sortByStart r _) ?_
  · intro r hr
    rw [mem_sortByStart] at hr
    obtain ⟨c, -, rfl⟩ := List.mem_map.mp hr
    exact rangeOf_start_le_stop c
  · apply NoneBelow.of_not_free hpos
    intro x hx hf
    exact absurd hf.1.1 (by omega)

def ClearFrom (floor : Option ℕ) (p : IPNet) (cs : List IPNet) (x : ℕ) : Prop :=
  Clear p cs x ∧ ∀ f, floor = some f → f ≤ x

def startAt (floor : Option ℕ) (p : IPNet) : ℕ :=
  max (cidrFirstAddr p) (floor.getD 0)

theorem ClearFrom.start_le {floor : Option ℕ} {p : IPNet} {cs : List IPNet} {x : ℕ} (h : ClearFrom floor p cs x) :
    startAt floor p ≤ x := by
  cases floor with
  | none => exact max_le h.1.1.1 (Nat.zero_le x)
  | some f => exact max_le h.1.1.1 (h.2 f rfl)

theorem clearFrom_iff {floor : Option ℕ} {p : IPNet} {cs : List IPNet} {x : ℕ} :
    ClearFrom floor p cs x ↔ startAt floor p ≤ x ∧ Clear p cs x := by
  refine ⟨fun h => ⟨h.start_le, h.1⟩, ?_⟩
  rintro ⟨hstart, hclear⟩
  refine ⟨hclear, ?_⟩
  rintro f rfl
  exact (le_max_right _ _).trans hstart

theorem ipToInt_intToIP_le (x : ℕ) (f : Family) : ipToInt (intToIP x f) ≤ x := by
  by_cases hlt : x < 2 ^ f.bits
  · have hip : intToIP x f = ⟨f, x, hlt⟩ := dif_pos hlt
    rw [hip]
    cases f with
    | v4 => exact le_rfl
    | v6 =>
      simp only [ipToInt, IP.to4]
      by_cases hmapped : x / 2 ^ 32 = v4InV6Prefix
      · simp only [if_pos hmapped]
        exact Nat.mod_le _ _
      · simp only [if_neg hmapped, le_refl]
  · have hip : intToIP x f = ⟨f, 0, by positivity⟩ := dif_neg hlt
    rw [hip]
    cases f with
    | v4 => exact Nat.zero_le _
    | v6 => simp [ipToInt, IP.to4, v4InV6Prefix]

theorem clear_supplied {existing blocks : List IPNet} {floor : Option ℕ} {p : IPNet}
    (h : Supplies existing p (intToIP (startAt floor p) p.bits) blocks) :
    ClearFrom floor p blocks = ClearFrom floor p existing := by
  funext x
  apply propext
  rw [clearFrom_iff, clearFrom_iff]
  apply and_congr_right
  intro hx
  apply and_congr_right
  intro hmem
  constructor
  · intro hclear c hc hbits hm
    have hend : ipToInt (intToIP (startAt floor p) p.bits) ≤ cidrLastAddr c :=
      (ipToInt_intToIP_le _ _).trans (hx.trans hm.2)
    exact hclear c (h.all c hc hend (hm.1.trans hmem.2)) hbits hm
  · intro hclear c hc
    exact hclear c (h.sub c hc)

theorem run_done {s : Scan} (h : s.done = true) (supply : IPNet → IP → List (List IPNet)) (fuel : ℕ) :
    s.run supply fuel = .ok s := by
  cases fuel with
  | zero => rfl
  | succ fuel => simp only [Scan.run, Scan.need, h, if_true]

theorem Decided.result {p : IPNet} {free : ℕ → Prop} {n : ℤ} {s : Scan} {o : Option IPNet} (h : Decided p free n s)
    (ho : FirstIn free p n o) : ∃ b, o = some b ∧ s.getResult = .ok b := by
  obtain ⟨b, hb, hfirst⟩ := h.found
  refine ⟨b, ho.unique hfirst, ?_⟩
  simp only [Scan.getResult, h.done, if_true, hb]

def reported : Option IPNet → Except Error IPNet
  | some b => .ok b
  | none => .error .poolExhausted

def FirstNoted (floor : Option ℕ) (existing ps : List IPNet) (before after : Option (ℕ × Family)) : Prop :=
  after = before ∨ ∃ pre q post, ps = pre ++ q :: post ∧ (∀ r ∈ pre, ∀ x, ¬ ClearFrom floor r existing x) ∧
    NotedHere q (ClearFrom floor q existing) before after

theorem FirstNoted.cons {floor : Option ℕ} {existing ps : List IPNet} {p : IPNet} {before after : Option (ℕ × Family)}
    (h : FirstNoted floor existing ps before after) (hp : ∀ x, ¬ ClearFrom floor p existing x) :
    FirstNoted floor existing (p :: ps) before after := by
  refine h.imp_right ?_
  rintro ⟨pre, q, post, rfl, hpre, hq⟩
  exact ⟨p :: pre, q, post, rfl, List.forall_mem_cons.mpr ⟨hp, hpre⟩, hq⟩

theorem FirstNoted.of_noted {floor : Option ℕ} {existing ps : List IPNet} {p : IPNet} {free : ℕ → Prop}
    {before between after : Option (ℕ × Family)} (hp : NotedHere p free before between)
    (h : FirstNoted floor existing ps between after) : NotedHere p free before after := by
  obtain ⟨a, rfl, ha⟩ := hp
  refine ⟨a, ?_, ha⟩
  obtain rfl | ⟨-, q, -, -, -, b, rfl, -⟩ := h
  · rfl
  · cases before with
    | none => rfl
    | some v => rfl

theorem enter_cons {s : Scan} {p : IPNet} {rest : List IPNet} {n : ℤ} {floor : Option ℕ} (hlen : s.prefixLen = n)
    (hfloor : s.floor = floor) (hresult : s.result = none) (hdone : s.done = false) :
    (∃ f, floor = some f ∧ cidrLastAddr p < f ∧ s.enter (p :: rest) = s.enter rest) ∨
      s.enter (p :: rest) = floored floor (underway p rest n (startAt floor p) none s.firstFree) := by
  obtain ⟨parents, prefixLen, bits, pEnd, cursor, last, firstFree, floor', result, done⟩ := s
  simp only at hlen hfloor hresult hdone
  subst hlen hfloor hresult hdone
  cases floor' with
  | none =>
    right
    have hstart : startAt none p = cidrFirstAddr p := max_eq_left (Nat.zero_le _)
    rw [hstart]
    rfl
  | some f =>
    by_cases hbelow : cidrLastAddr p < f
    · exact Or.inl ⟨f, rfl, hbelow, if_pos hbelow⟩
    · exact Or.inr (if_neg hbelow)

theorem run_enter {existing : List IPNet} {n : ℤ} {floor : Option ℕ} {supply : IPNet → IP → List (List IPNet)}
    {pick : IPNet → Option IPNet} {ps : List IPNet}
    (hpick : ∀ p ∈ ps, FirstIn (ClearFrom floor p existing) p n (pick p))
    (hsupply : ∀ p ∈ ps, Supplies existing p (intToIP (startAt floor p) p.bits)
      (supply p (intToIP (startAt floor p) p.bits)).flatten)
    {s : Scan} (hlen : s.prefixLen = n) (hfloor : s.floor = floor) (hresult : s.result = none)
    (hdone : s.done = false) {fuel : ℕ} (hfuel : ps.length ≤ fuel) :
    ∃ t, (s.enter ps).run supply fuel = .ok t ∧ t.getResult = reported (ps.findSome? pick) ∧
      FirstNoted floor existing ps s.firstFree t.firstFree := by
  induction ps generalizing s fuel with
  | nil =>
    refine ⟨_, run_done rfl supply fuel, ?_, .inl rfl⟩
    simp only [Scan.getResult, Scan.enter, if_true, hresult, List.findSome?_nil, reported]
  | cons p rest ih =>
    obtain ⟨hown, hrest⟩ := List.forall_mem_cons.mp hsupply
    obtain ⟨hfirst, hpicks⟩ := List.forall_mem_cons.mp hpick
    obtain ⟨f, rfl, hbelow, henter⟩ | henter := @enter_cons s p rest n floor hlen hfloor hresult hdone
    · -- a parent below the floor is skipped, and has nothing to pick
      have hclear : ∀ x, ¬ ClearFrom (some f) p existing x := by
        intro x hx
        have := hx.2 f rfl
        have := hx.1.1.2
        omega
      have hnone : pick p = none := by
        refine hfirst.unique ?_
        intro _ start hfits
        exact hclear start (hfits.isFree start le_rfl (Nat.lt_add_of_pos_right (unitOf_pos p n)))
      obtain ⟨t, hrun, hget, hnoted⟩ := @ih hpicks hrest s hlen hfloor hresult hdone fuel
        ((Nat.le_succ _).trans hfuel)
      rw [henter, List.findSome?_cons, hnone]
      exact ⟨t, hrun, hget, hnoted.cons hclear⟩
    cases fuel with
    | zero => cases hfuel
    | succ fuel =>
      have hreached : Reached p (ClearFrom floor p existing) n (startAt floor p)
          (supply p (intToIP (startAt floor p) p.bits)).flatten := by
        rw [← clear_supplied hown]
        refine ⟨le_max_left _ _, fun _ => ?_, ?_⟩
        · apply NoneBelow.of_not_free (unitOf_pos p n)
          intro x hx hf
          exact absurd hf.start_le (by omega)
        · intro x hx
          rw [clearFrom_iff, ← clear_ahead p _ (fun _ => Iff.rfl) x ((le_max_left _ _).trans hx)]
          exact and_iff_right hx
      have hstart : Noted p (ClearFrom floor p existing) (startAt floor p) s.firstFree s.firstFree :=
        .inl ⟨rfl, fun x hx => hx.start_le⟩
      obtain ⟨t, hfeed, hcase⟩ := @feedAll_reached p rest n (startAt floor p) floor none s.firstFree s.firstFree
        (ClearFrom floor p existing) _ (by simp) hown.ascending hreached hstart
      have hrun : (s.enter (p :: rest)).run supply (fuel + 1) = t.atEnd.run supply fuel := by
        rw [henter]
        change ((floored floor (underway p rest n (startAt floor p) none s.firstFree)).feedPages
          (supply p (intToIP (startAt floor p) p.bits))).bind _ = _
        rw [feedPages_eq, hfeed]
        rfl
      have hdecided : Decided p (ClearFrom floor p existing) n t.atEnd →
          NotedHere p (ClearFrom floor p existing) s.firstFree t.atEnd.firstFree →
          ∃ u, t.atEnd.run supply fuel = .ok u ∧ u.getResult = reported ((p :: rest).findSome? pick) ∧
            FirstNoted floor existing (p :: rest) s.firstFree u.firstFree := by
        intro h hnoted
        obtain ⟨b, hb, hget⟩ := h.result hfirst
        refine ⟨t.atEnd, run_done h.done supply fuel, ?_, .inr ⟨[], p, rest, rfl, by simp, hnoted⟩⟩
        rw [List.findSome?_cons, hb]
        exact hget
      rw [hrun]
      cases hcase with
      | @further cursor' last' firstFree' hreached' hnoted' _ =>
        obtain ⟨firstFree'', hatEnd, hnone, hfree⟩ | ⟨h, hnoted⟩ :=
          @atEnd_reached p rest n cursor' floor last' s.firstFree firstFree' _ hreached' hnoted'
        · obtain ⟨u, hrun', hget, hnoted⟩ := @ih hpicks hrest (floored floor (underway p rest n cursor' last' firstFree''))
            rfl rfl rfl rfl fuel (Nat.le_of_succ_le_succ hfuel)
          rw [hatEnd, List.findSome?_cons, hfirst.unique hnone]
          refine ⟨u, hrun', hget, ?_⟩
          obtain ⟨rfl, hclear⟩ | hhere := hfree
          · exact hnoted.cons hclear
          · exact .inr ⟨[], p, rest, rfl, by simp, FirstNoted.of_noted hhere hnoted⟩
        · exact hdecided h hnoted
      | decided h hnoted =>
        have hatEnd : t.atEnd = t := if_pos h.done
        rw [← hatEnd] at h hnoted
        exact hdecided h hnoted

theorem clearFrom_none (p : IPNet) (existing : List IPNet) : ClearFrom none p existing = Clear p existing := by
  funext x
  simp [ClearFrom]

theorem startAt_none (p : IPNet) : startAt none p = cidrFirstAddr p :=
  max_eq_left (Nat.zero_le _)

theorem scanWhole_eq {existing parents : List IPNet} {n : ℤ} {supply : IPNet → IP → List (List IPNet)}
    (hne : parents ≠ [])
    (hsupply : ∀ p ∈ parents, Supplies existing p (intToIP (cidrFirstAddr p) p.bits)
      (supply p (intToIP (cidrFirstAddr p) p.bits)).flatten) :
    scanWhole supply parents n = reported (parents.findSome? (scanPick existing n)) := by
  have hpick : ∀ p ∈ parents, FirstIn (ClearFrom none p existing) p n (scanPick existing n p) := by
    intro p _
    rw [clearFrom_none]
    exact firstIn_scanPick existing n p
  have hsupply' : ∀ p ∈ parents, Supplies existing p (intToIP (startAt none p) p.bits)
      (supply p (intToIP (startAt none p) p.bits)).flatten := by
    intro p hp
    rw [startAt_none]
    exact hsupply p hp
  obtain ⟨t, hrun, hget, -⟩ := run_enter hpick hsupply'
    (s := ⟨[], n, .v4, 0, 0, none, none, none, none, false⟩) rfl rfl rfl rfl (le_refl parents.length)
  simp only [scanWhole, Scan.newScan, if_neg hne, Option.map_none, Except.bind, hrun]
  exact hget

def wholePick (existing : List IPNet) (n : ℤ) (p : IPNet) : Option IPNet :=
  (firstFitIn p (viewParent p existing) n).map Fit.cidr

theorem findFirstAvailableBlock_wholePick {parents : List IPNet} (existing : List IPNet) (n : ℤ)
    (hne : parents ≠ []) :
    findFirstAvailableBlock parents existing n .firstFit = reported (parents.findSome? (wholePick existing n)) := by
  have hpick : parents.findSome? (wholePick existing n) =
      (parents.findSome? fun p => firstFitIn p (viewParent p existing) n).map Fit.cidr :=
    findSome?_map_option _ _ _
  rw [hpick]
  simp only [findFirstAvailableBlock, if_neg hne, strategyOrDefault, if_true]
  cases parents.findSome? fun p => firstFitIn p (viewParent p existing) n <;> rfl

section

variable {p : IPNet} {existing : List IPNet} {n : ℤ} (hp : ¬ p.MeetsMapped)
  (hexisting : ∀ c ∈ existing, ¬ c.MeetsMapped)

include hp hexisting

end

theorem Suits.mono {p b : IPNet} {taken taken' : List IPNet} {n : ℤ} (h : Suits p taken n b)
    (hsub : ∀ c ∈ taken', c ∈ taken) : Suits p taken' n b :=
  ⟨h.canonical, h.length, h.inside, fun c hc => h.apart c (hsub c hc)⟩

section

variable {parents existing : List IPNet} {n : ℤ} (hparents : ∀ p ∈ parents, ¬ p.MeetsMapped)
  (hexisting : ∀ c ∈ existing, ¬ c.MeetsMapped)

include hparents hexisting

end

theorem reported_injective {o o' : Option IPNet} (h : reported o = reported o') : o = o' := by
  cases o <;> cases o' <;> simp_all [reported]

end Ipam.Allocation
