import Ipam.Allocation.ScanWhole

namespace Ipam.Allocation

open FirstFit

def scanFrom (floor : Option IP) (supply : IPNet → IP → List (List IPNet)) (parents : List IPNet) (prefixLen : ℤ) :
    Except Error IPNet :=
  (Scan.newScan parents prefixLen floor).bind fun s => (s.run supply parents.length).bind Scan.getResult

def Room (p : IPNet) (existing : List IPNet) (n : ℤ) (start : ℕ) : Prop :=
  Takes p n ∧ Fits (Clear p existing) (unitOf p n) start

def FirstClear (parents existing : List IPNet) (q : IPNet) (a : ℕ) : Prop :=
  ∃ pre post, parents = pre ++ q :: post ∧ (∀ r ∈ pre, ∀ x, ¬ Clear r existing x) ∧ Clear q existing a ∧
    ∀ x, Clear q existing x → a ≤ x

def FirstRoom (parents existing : List IPNet) (n : ℤ) (start : ℕ) : Prop :=
  ∃ pre p post, parents = pre ++ p :: post ∧ (∀ r ∈ pre, ∀ x, ¬ Room r existing n x) ∧ Room p existing n start

def SuppliesAll (existing parents : List IPNet) (supply : IPNet → IP → List (List IPNet)) : Prop :=
  ∀ p ∈ parents, ∀ lowest, Supplies existing p lowest (supply p lowest).flatten

section

variable {parents existing : List IPNet} {n : ℤ} {free : ℕ → Prop} {p : IPNet}

theorem exists_firstIn (free : ℕ → Prop) (p : IPNet) (n : ℤ) : ∃ o, FirstIn free p n o := by
  classical
  by_cases h : Takes p n ∧ ∃ start, Fits free (unitOf p n) start
  · obtain ⟨htakes, hfits⟩ := h
    refine ⟨some (makeCIDR (Nat.find hfits) n.toNat p.bits htakes.toNat_le), htakes, _, ?_, rfl⟩
    exact ⟨Nat.find_spec hfits, fun start hstart => Nat.find_min' hfits hstart⟩
  · exact ⟨none, fun htakes start hstart => h ⟨htakes, start, hstart⟩⟩

theorem scanFrom_eq {floor : Option IP} {supply : IPNet → IP → List (List IPNet)} {pick : IPNet → Option IPNet}
    (hne : parents ≠ []) (hsupply : SuppliesAll existing parents supply)
    (hpick : ∀ p ∈ parents, FirstIn (ClearFrom (floor.map ipToInt) p existing) p n (pick p)) :
    scanFrom floor supply parents n = reported (parents.findSome? pick) := by
  obtain ⟨t, hrun, hget, -⟩ := run_enter hpick (fun p hp => hsupply p hp _)
    (s := ⟨[], n, .v4, 0, 0, none, none, floor.map ipToInt, none, false⟩) rfl rfl rfl rfl (le_refl parents.length)
  simp only [scanFrom, Scan.newScan, if_neg hne, Except.bind, hrun]
  exact hget

theorem ipToInt_le (ip : IP) : ipToInt ip ≤ ip.addr := by
  obtain ⟨family, addr, hlt⟩ := ip
  cases family with
  | v4 => exact le_rfl
  | v6 =>
    simp only [ipToInt, IP.to4]
    by_cases hmapped : addr / 2 ^ 32 = v4InV6Prefix
    · simp only [if_pos hmapped]
      exact Nat.mod_le _ _
    · simp only [if_neg hmapped, le_refl]

theorem cidrLastAddr_lt (p : IPNet) : cidrLastAddr p < 2 ^ p.bits.bits := by
  have hfirst : cidrFirstAddr p ≤ p.base := ipToInt_le _
  have hbase : p.base < 2 ^ p.bits.bits := p.base_le.trans_lt p.ip.addr_lt
  have hend : p.base + p.size ≤ 2 ^ p.bits.bits :=
    Dyadic.add_le_of_lt p.size_dvd_base (pow_dvd_pow 2 (Nat.sub_le _ _)) hbase
  have hpos := p.size_pos
  rw [IPNet.cidrLastAddr_eq]
  omega

theorem Fits.start_lt {start : ℕ} (h : Fits (Clear p existing) (unitOf p n) start) : start < 2 ^ p.bits.bits :=
  (h.isFree start le_rfl (Nat.lt_add_of_pos_right (unitOf_pos p n))).1.2.trans_lt (cidrLastAddr_lt p)

theorem makeCIDR_injective {start start' l l' : ℕ} {f f' : Family} {h : l ≤ f.bits} {h' : l' ≤ f'.bits}
    (hs : start < 2 ^ f.bits) (hs' : start' < 2 ^ f'.bits) (heq : makeCIDR start l f h = makeCIDR start' l' f' h') :
    start = start' := by
  rw [makeCIDR_eq hs, makeCIDR_eq hs'] at heq
  exact congrArg (fun b : IPNet => b.ip.addr) heq

theorem floor_le_of_firstIn {floor start : ℕ} {b : IPNet} {f : Family} {l : ℕ} {h : l ≤ f.bits}
    (hfirst : FirstIn (ClearFrom (some floor) p existing) p n (some b)) (hs : start < 2 ^ f.bits)
    (hb : b = makeCIDR start l f h) : floor ≤ start := by
  obtain ⟨_, start', hanswer, hb'⟩ := hfirst
  have hclear := hanswer.1.isFree start' le_rfl (Nat.lt_add_of_pos_right (unitOf_pos p n))
  rw [hb'] at hb
  rw [← makeCIDR_injective (hclear.1.1.2.trans_lt (cidrLastAddr_lt p)) hs hb]
  exact hclear.2 floor rfl

theorem firstIn_floor_none {floor : Option ℕ} (h : FirstIn (Clear p existing) p n none) :
    FirstIn (ClearFrom floor p existing) p n none :=
  fun htakes start hfits => h htakes start ⟨hfits.dvd, fun x hx hx' => (hfits.isFree x hx hx').1⟩

theorem firstIn_floor_some {floor start : ℕ} (htakes : Takes p n) (hle : floor ≤ start)
    (h : Answer (Clear p existing) (unitOf p n) (some start)) :
    FirstIn (ClearFrom (some floor) p existing) p n (some (makeCIDR start n.toNat p.bits htakes.toNat_le)) := by
  refine ⟨htakes, start, ⟨⟨h.1.dvd, ?_⟩, ?_⟩, rfl⟩
  · intro x hx hx'
    refine ⟨h.1.isFree x hx hx', ?_⟩
    rintro f ⟨⟩
    exact hle.trans hx
  · exact fun s hs => h.2 s ⟨hs.dvd, fun x hx hx' => (hs.isFree x hx hx').1⟩

theorem FirstRoom.cons_of_none (h : ∀ x, ¬ Room p existing n x) {start : ℕ} :
    FirstRoom (p :: parents) existing n start ↔ FirstRoom parents existing n start := by
  constructor
  · rintro ⟨pre, q, post, heq, hpre, hq⟩
    cases pre with
    | nil =>
      obtain ⟨rfl, rfl⟩ := List.cons.inj heq
      exact absurd hq (h start)
    | cons r pre =>
      obtain ⟨rfl, rfl⟩ := List.cons.inj heq
      exact ⟨pre, q, post, rfl, (List.forall_mem_cons.mp hpre).2, hq⟩
  · rintro ⟨pre, q, post, rfl, hpre, hq⟩
    exact ⟨p :: pre, q, post, rfl, List.forall_mem_cons.mpr ⟨h, hpre⟩, hq⟩

theorem FirstRoom.cons_of_room {start : ℕ} (h : Room p existing n start) {x : ℕ} :
    FirstRoom (p :: parents) existing n x ↔ Room p existing n x := by
  constructor
  · rintro ⟨pre, q, post, heq, hpre, hq⟩
    cases pre with
    | nil =>
      obtain ⟨rfl, rfl⟩ := List.cons.inj heq
      exact hq
    | cons r pre =>
      obtain ⟨rfl, rfl⟩ := List.cons.inj heq
      exact absurd h (hpre p List.mem_cons_self start)
  · exact fun hx => ⟨[], p, parents, rfl, by simp, hx⟩

theorem picks_floor_iff {floor : ℕ} {pick pick' : IPNet → Option IPNet}
    (hpick : ∀ p ∈ parents, FirstIn (ClearFrom (some floor) p existing) p n (pick p))
    (hpick' : ∀ p ∈ parents, FirstIn (Clear p existing) p n (pick' p)) :
    parents.findSome? pick = parents.findSome? pick' ↔ ∀ start, FirstRoom parents existing n start → floor ≤ start := by
  induction parents with
  | nil =>
    refine iff_of_true rfl ?_
    rintro start ⟨pre, p, post, heq, -⟩
    simp at heq
  | cons p rest ih =>
    obtain ⟨hp, hrest⟩ := List.forall_mem_cons.mp hpick
    obtain ⟨hp', hrest'⟩ := List.forall_mem_cons.mp hpick'
    rw [List.findSome?_cons, List.findSome?_cons]
    cases hwhole : pick' p with
    | none =>
      rw [hwhole] at hp'
      have hroom : ∀ x, ¬ Room p existing n x := fun x hx => hp' hx.1 x hx.2
      rw [hp.unique (firstIn_floor_none hp')]
      simp only [FirstRoom.cons_of_none hroom]
      exact ih hrest hrest'
    | some b =>
      rw [hwhole] at hp'
      obtain ⟨htakes, start, hanswer, rfl⟩ := hp'
      have hroom : Room p existing n start := ⟨htakes, hanswer.1⟩
      simp only [FirstRoom.cons_of_room hroom]
      have hleast : (∀ x, Room p existing n x → floor ≤ x) ↔ floor ≤ start :=
        ⟨fun h => h start hroom, fun h x hx => h.trans (hanswer.2 x hx.2)⟩
      rw [hleast]
      constructor
      · intro heq
        -- whichever parent gives the block, it is searched from the floor on
        have hfound : (p :: rest).findSome? pick = some (makeCIDR start n.toNat p.bits htakes.toNat_le) := by
          rw [List.findSome?_cons]
          exact heq
        obtain ⟨q, hq, hpickq⟩ := List.exists_of_findSome?_eq_some hfound
        have hfirst := hpick q hq
        rw [hpickq] at hfirst
        exact floor_le_of_firstIn hfirst (Fits.start_lt hanswer.1) rfl
      · intro hle
        rw [hp.unique (firstIn_floor_some htakes hle hanswer)]

theorem FirstClear.unique {q q' : IPNet} {a a' : ℕ} (h : FirstClear parents existing q a)
    (h' : FirstClear parents existing q' a') : q = q' ∧ a = a' := by
  obtain ⟨pre, post, rfl, hpre, hclear, hleast⟩ := h
  obtain ⟨pre', post', heq, hpre', hclear', hleast'⟩ := h'
  have hsame : q = q' := by
    obtain ⟨hq', -⟩ | ⟨hq, -⟩ | hsame := split_cases heq
    · exact absurd hclear' (hpre q' hq' a')
    · exact absurd hclear (hpre' q hq a)
    · exact hsame
  subst hsame
  exact ⟨rfl, le_antisymm (hleast a' hclear') (hleast' a hclear)⟩

theorem getFirstFree_firstClear {supply : IPNet → IP → List (List IPNet)} {s : Scan} {f : IP} (hne : parents ≠ [])
    (hsupply : SuppliesAll existing parents supply)
    (hscan : (Scan.newScan parents n none).bind (fun s => s.run supply parents.length) = .ok s)
    (hf : s.getFirstFree = some f) : ∃ q a, FirstClear parents existing q a ∧ f = intToIP a q.bits := by
  have hpick : ∀ p ∈ parents, FirstIn (ClearFrom none p existing) p n (scanPick existing n p) := by
    intro p _
    rw [clearFrom_none]
    exact firstIn_scanPick existing n p
  obtain ⟨t, hrun, -, hnoted⟩ := run_enter hpick (fun p hp => hsupply p hp _)
    (s := ⟨[], n, .v4, 0, 0, none, none, none, none, false⟩) rfl rfl rfl rfl (le_refl parents.length)
  simp only [Scan.newScan, if_neg hne, Option.map_none, Except.bind, hrun] at hscan
  obtain rfl := Except.ok.inj hscan
  simp only [Scan.getFirstFree, Option.map_eq_some_iff] at hf
  obtain ⟨noted, hfirst, rfl⟩ := hf
  obtain hnone | ⟨pre, q, post, rfl, hpre, a, ha, hclear, hleast⟩ := hnoted
  · rw [hfirst] at hnone
    cases hnone
  · rw [hfirst] at ha
    obtain rfl := Option.some.inj ha
    simp only [clearFrom_none] at hpre hclear hleast
    exact ⟨q, a, ⟨pre, post, rfl, hpre, hclear, hleast⟩, rfl⟩

theorem firstClear_le_firstRoom {q : IPNet} {a start : ℕ}
    (hascending : parents.Pairwise fun q p => cidrLastAddr q < cidrFirstAddr p)
    (hclear : FirstClear parents existing q a) (hroom : FirstRoom parents existing n start) :
    ipToInt (intToIP a q.bits) ≤ start := by
  obtain ⟨pre, post, rfl, hpre, hq, hleast⟩ := hclear
  obtain ⟨pre', p, post', heq, -, hp⟩ := hroom
  have hstart : Clear p existing start := hp.2.isFree start le_rfl (Nat.lt_add_of_pos_right (unitOf_pos p n))
  refine (ipToInt_intToIP_le a q.bits).trans ?_
  obtain ⟨hp', -⟩ | ⟨-, hp'⟩ | rfl := split_cases heq
  · exact absurd hstart (hpre p hp' start)
  · have hbelow := (List.pairwise_cons.mp (List.pairwise_append.mp hascending).2.1).1 p hp'
    exact (hq.1.2.trans_lt hbelow).le.trans hstart.1.1
  · exact hleast start hstart

end

theorem firstFree_floor_iff {parents existing : List IPNet} {n m : ℤ}
    {supply supply' supply'' : IPNet → IP → List (List IPNet)} (hsupply : SuppliesAll existing parents supply)
    (hsupply' : SuppliesAll existing parents supply') (hsupply'' : SuppliesAll existing parents supply'') {s : Scan}
    {f : IP} (hscan : (Scan.newScan parents n none).bind (fun s => s.run supply parents.length) = .ok s)
    (hf : s.getFirstFree = some f) :
    scanFrom (some f) supply' parents m = scanWhole supply'' parents m ↔
      ∀ q a start, FirstClear parents existing q a → FirstRoom parents existing m start →
        ipToInt (intToIP a q.bits) ≤ start := by
  have hne : parents ≠ [] := by
    rintro rfl
    cases hscan
  obtain ⟨q, a, hclear, rfl⟩ := getFirstFree_firstClear hne hsupply hscan hf
  choose pick hpick using fun p => exists_firstIn (ClearFrom (some (ipToInt (intToIP a q.bits))) p existing) p m
  have hagree := @picks_floor_iff parents existing m _ pick (scanPick existing m) (fun p _ => hpick p)
    fun p _ => firstIn_scanPick existing m p
  have hfrom : scanFrom (some (intToIP a q.bits)) supply' parents m = reported (parents.findSome? pick) :=
    scanFrom_eq hne hsupply' fun p _ => hpick p
  rw [hfrom, scanWhole_eq hne fun p hp => hsupply'' p hp _]
  constructor
  · intro heq q' a' start hclear' hroom
    obtain ⟨rfl, rfl⟩ := hclear.unique hclear'
    exact hagree.mp (reported_injective heq) start hroom
  · intro h
    rw [hagree.mpr fun start => h q a start hclear]

theorem firstFree_floor_tenNet :
    scanFrom (some ⟨.v4, 0x0a000040, by decide⟩) (fun _ _ => [[tenNet 0 26]]) [tenNet 0 25, tenNet 128 25] 25 =
      scanWhole (fun _ _ => [[], [tenNet 0 26]]) [tenNet 0 25, tenNet 128 25] 25 := by
  have hsupply (pages : List (List IPNet)) (hpages : pages.flatten = [tenNet 0 26]) :
      SuppliesAll [tenNet 0 26] [tenNet 0 25, tenNet 128 25] fun _ _ => pages := by
    intro p _ lowest
    rw [hpages]
    exact ⟨by simp, fun c hc _ _ => hc, by simp⟩
  refine (firstFree_floor_iff (hsupply [[tenNet 0 26]] rfl) (hsupply _ rfl) (hsupply _ rfl) (n := 32) rfl
    (by decide)).mpr ?_
  exact fun q a start => firstClear_le_firstRoom (by decide)

theorem firstFree_floor_hides :
    ∃ s f, (Scan.newScan [tenNet 128 26, tenNet 0 25] 32 none).bind (fun s => s.run (fun _ _ => []) 2) = .ok s ∧
      s.getFirstFree = some f ∧
      scanFrom (some f) (fun _ _ => []) [tenNet 128 26, tenNet 0 25] 25 = .error .poolExhausted ∧
      scanWhole (fun _ _ => []) [tenNet 128 26, tenNet 0 25] 25 = .ok (tenNet 0 25) ∧
      SuppliesAll [] [tenNet 128 26, tenNet 0 25] fun _ _ => [] :=
  ⟨_, _, rfl, rfl, by decide, by decide, fun _ _ _ => ⟨by simp, by simp, by simp⟩⟩

end Ipam.Allocation
