import Ipam.Allocator.SearchRefinement

namespace Ipam.Allocator

open Allocation Database Transaction FirstFit

def Decides (s : Db) (k : Key) (digest : String) (p : Cidr) (n : ℤ) (floor : Option IP) : Prop :=
  (∃ r, runSearch s k digest p n searchPageSize floor searchPageLimit = .ok r) ∨
    runSearch s k digest p n searchPageSize floor searchPageLimit = .error (.allocation .poolExhausted)

def Legible (p : Cidr) : Prop :=
  p.last + 1 < 2 ^ p.family.bits ∧ ¬ p.MeetsMapped ∧ ¬ EndsBelowMapped p

instance (p : Cidr) : Decidable (Legible p) :=
  inferInstanceAs (Decidable (_ ∧ _))

theorem decides_of_locked {s : Db} {k : Key} {digest : String} {p : Cidr} {n : ℤ} {floor : Option IP}
    {Q : IPNet × Option IP → PoolState → Prop}
    (h : Locked postgres Alone (.object k) (Db.poolState k) (s.poolState k)
      (boundedFirstFit searchPageSize searchPageLimit k digest [p.net] n floor) Q
      fun e _ => e = .allocation .poolExhausted) : Decides s k digest p n floor := by
  have hrun := Locked.run h
  simp only [Decides, runSearch]
  cases hr : postgres.run (boundedFirstFit searchPageSize searchPageLimit k digest [p.net] n floor) s with
  | ok r => exact Or.inl ⟨r, rfl⟩
  | error e =>
    rw [hr] at hrun
    obtain ⟨-, rfl⟩ := hrun
    exact Or.inr rfl

section

variable {p : Cidr} {cs : List Cidr} {n : ℤ} {k : Key} {digest : String} {s : Db}

theorem decides_of_legible (hp : Legible p) (hin : ∀ c ∈ blocksIn digest (s.poolRows k), c.within p = true)
    (hlimit : min (blocksIn digest (s.poolRows k)).length p.size < searchPageLimit) (floor : Option IP) :
    Decides s k digest p n floor := by
  have hlocked := @boundedFirstFit_total p _ n Alone (.object k) k (s.poolState k) digest searchPageSize
    (frozen_alone (.object k) k) rfl hin (by decide) hp.1 floor
    (stopsUnmapped_of_not_meets hp.2.1 hp.2.2 hin) searchPageLimit
  apply decides_of_locked
  apply hlocked.mono
  · exact fun _ _ h => h
  · rintro e y (⟨-, hlength, hsize⟩ | ⟨rfl, -⟩)
    · have hle : searchPageLimit ≤ min (blocksIn digest (s.poolRows k)).length p.size :=
        le_min hlength hsize
      omega
    · rfl

theorem startOf_empty {floor : Option IP} (h : FloorBelow p [] floor) : startOf p floor = p.addr := by
  cases floor with
  | none => simp [startOf]
  | some ip =>
    have hfree : Free p [] p.addr := ⟨le_rfl, p.addr_le_last, by simp⟩
    simpa [startOf] using h ip rfl p.addr hfree

theorem faithful_addr (p : Cidr) : Faithful p p.addr :=
  ⟨p.addr_lt, fun h => p.unmapped h.1 ((mapped_iff_div _).mpr h.2)⟩

theorem decides_of_empty (hcs : blocksIn digest (s.poolRows k) = []) {floor : Option IP}
    (hfloor : FloorBelow p [] floor) : Decides s k digest p n floor := by
  obtain ⟨scan, hnew, hstart⟩ := newScan_freeFrom p [] n floor
  rw [startOf_empty hfloor] at hstart
  have hloop : Locked postgres Alone (.object k) (Db.poolState k) (s.poolState k)
      (searchLoop searchPageSize k digest searchPageLimit scan)
      (fun scan _ => Finished p (FreeFrom p [] p.addr) n scan) (fun _ _ => False) := by
    rcases hstart with ⟨rfl, hs⟩ | hfin
    · rw [show searchPageLimit = 99999 + 1 from rfl, searchLoop_succ]
      apply Locked.bind
      apply (searchPass_turn (frozen_alone (.object k) k) hcs (by simp) (by decide) hs
        (fun l hl => by cases hl) (faithful_addr p)).mono
      · rintro scan y ⟨-, hturn | ⟨⟨b, hb, -⟩, -⟩⟩
        · cases hturn with
          | moved b hb => simp at hb
          | found b hb => simp at hb
          | ended _ hfin =>
            rw [searchLoop_done hfin.done]
            exact Locked.pure hfin
        · simp at hb
      · rintro e y ⟨b, hb, -⟩
        simp at hb
    · rw [searchLoop_done hfin.done]
      exact Locked.pure hfin
  refine decides_of_locked (Q := fun _ _ => True) ?_
  rw [boundedFirstFit_eq hnew]
  apply Locked.bind
  apply hloop.mono
  · intro scan y hfin
    exact (searchResult_locked hfin).mono (fun _ _ _ => trivial) fun _ _ h => h.1
  · exact fun _ _ h => h.elim

end

def Restarts (r : Cidr) : Prop :=
  ¬ r.Mem (intToIP (r.last + 1) r.family).string.family (intToIP (r.last + 1) r.family).string.addr ∧
    networkCmp r.family r.addr r.len (intToIP (r.last + 1) r.family).string.family
      (intToIP (r.last + 1) r.family).string.addr (intToIP (r.last + 1) r.family).string.family.bits ≠ .lt

theorem string_intToIP_end (f : Family) : (intToIP (2 ^ f.bits) f).string = ⟨f, 0, Nat.two_pow_pos f.bits⟩ := by
  cases f <;> decide

theorem Restarts.not_whole {r : Cidr} (h : Restarts r) : ¬ Whole r := by
  rintro ⟨haddr, hlast⟩
  have hmem := h.1
  rw [hlast, string_intToIP_end] at hmem
  exact hmem ⟨rfl, haddr.le, Nat.zero_le _⟩

theorem restarts_of_end {r : Cidr} (hlast : r.last + 1 = 2 ^ r.family.bits) (haddr : 0 < r.addr) : Restarts r := by
  unfold Restarts
  rw [hlast, string_intToIP_end]
  refine ⟨fun hm => absurd hm.2.1 (not_le.mpr haddr), ?_⟩
  exact (networkCmp_host_ne_lt_iff r 0).mpr (Or.inl haddr)

theorem restarts_of_mapped {r : Cidr} (h : EndsBelowMapped r) : Restarts r := by
  unfold Restarts
  rw [h.1, h.2, string_mappedStart]
  refine ⟨fun hm => absurd (h.1.symm.trans hm.1) (by decide), ?_⟩
  rw [networkCmp_family_ne (by decide)]
  decide

section

variable {p : Cidr}

theorem host_len_le (p : Cidr) : p.family.bits ≤ p.family.bits :=
  le_rfl

theorem host_unmapped (p : Cidr) (a : ℕ) (hm : ¬ Mapped p.family a) :
    p.family = .v6 → a / 2 ^ 32 ≠ v4InV6Prefix :=
  fun hf hdiv => hm ⟨hf, (mapped_iff_div a).mp hdiv⟩

def host (p : Cidr) (a : ℕ) (ha : a ≤ p.last) (hm : ¬ Mapped p.family a) : Cidr where
  family := p.family
  addr := a
  len := p.family.bits
  len_le := host_len_le p
  aligned := by simp [blockSize]
  addr_lt := ha.trans_lt p.last_lt
  unmapped := host_unmapped p a hm

theorem host_last (a : ℕ) (ha : a ≤ p.last) (hm : ¬ Mapped p.family a) : (host p a ha hm).last = a := by
  simp [Cidr.last, Cidr.size, blockSize, host]

theorem host_within {a : ℕ} (haddr : p.addr ≤ a) (ha : a ≤ p.last) (hm : ¬ Mapped p.family a) :
    (host p a ha hm).within p = true := by
  apply (Cidr.within_iff _ p).mpr
  rw [host_last]
  exact ⟨rfl, haddr, ha⟩

theorem addr_lt_mappedStart (hf : p.family = .v6) (h : p.addr < mappedStart + 2 ^ 32) : p.addr < mappedStart := by
  by_contra hle
  exact p.unmapped hf ((mapped_iff_div _).mpr ⟨not_lt.mp hle, h⟩)

theorem exists_restarts (h : ¬ Legible p) : ∃ r : Cidr, r.within p = true ∧ Restarts r := by
  by_cases hend : p.last + 1 < 2 ^ p.family.bits
  · obtain ⟨hf, haddr, hlast⟩ : p.family = .v6 ∧ p.addr < mappedStart ∧ mappedStart - 1 ≤ p.last := by
      by_cases hm : p.MeetsMapped
      · refine ⟨hm.1, addr_lt_mappedStart hm.1 hm.2.1, ?_⟩
        have := hm.2.2
        omega
      · have hends : EndsBelowMapped p := by
          by_contra hends
          exact h ⟨hend, hm, hends⟩
        have := hends.2
        have := p.addr_le_last
        exact ⟨hends.1, by omega, by omega⟩
    have hunmapped : ¬ Mapped p.family (mappedStart - 1) := by
      rintro ⟨-, hle, -⟩
      have := pow_le_mappedStart
      omega
    refine ⟨host p (mappedStart - 1) hlast hunmapped, host_within (by omega) hlast hunmapped, ?_⟩
    apply restarts_of_mapped
    refine ⟨hf, ?_⟩
    rw [host_last]
    omega
  · have hlast : p.last + 1 = 2 ^ p.family.bits := by
      have := p.last_lt
      omega
    have hunmapped : ¬ Mapped p.family p.last := by
      rintro ⟨hf, -, hlt⟩
      have hroom : mappedStart + 2 ^ 32 < 2 ^ Family.v6.bits := by decide
      rw [hf] at hlast
      omega
    refine ⟨host p p.last le_rfl hunmapped, host_within p.addr_le_last le_rfl hunmapped, ?_⟩
    apply restarts_of_end
    · rw [host_last]
      exact hlast
    · have : 1 < 2 ^ p.family.bits := Nat.one_lt_two_pow (by cases p.family <;> decide)
      change 0 < p.last
      omega

variable {n : ℤ} {k : Key} {digest : String} {x : PoolState} {cs : List Cidr} {floor last : Option ℕ} {cursor : ℕ}
  {firstFree : Option (ℕ × Family)} {pageSize : ℕ}

theorem searchLoop_behind (hcs : blocksIn digest x.rows = cs) (hin : ∀ c ∈ cs, c.within p = true)
    (hcover : coveringBlocks cs (intToIP cursor p.family).string p = [])
    (hpage : blocksFrom cs (intToIP cursor p.family).string p pageSize ≠ [])
    (hbehind : ∀ c ∈ blocksFrom cs (intToIP cursor p.family).string p pageSize, c ∈ cs ∧ c.last < cursor)
    (pages : ℕ) :
    Locked postgres Alone (.object k) (Db.poolState k) x
      (searchLoop pageSize k digest pages (scanning p n floor cursor last firstFree)) (fun _ _ => False)
      (fun e _ => e = .searchDidNotAdvance ∨ e = .allocation .scanOutOfOrder) := by
  induction pages generalizing last with
  | zero => exact Locked.throw (Or.inl rfl)
  | succ pages ih =>
    rw [searchLoop_succ]
    apply Locked.bind
    apply (searchPass_behind (frozen_alone (.object k) k) hcs hin hcover hpage hbehind).mono
    · rintro s y ⟨rfl, last', rfl⟩
      exact ih
    · exact fun e y h => Or.inr h

theorem searchLoop_restarts {r : Cidr} (hcs : blocksIn digest x.rows = [r]) (hin : r.within p = true)
    (hr : Restarts r) (hsize : 0 < pageSize) (pages : ℕ) :
    Locked postgres Alone (.object k) (Db.poolState k) x
      (searchLoop pageSize k digest pages (scanning p n floor (r.last + 1) last firstFree)) (fun _ _ => False)
      (fun e _ => e = .searchDidNotAdvance ∨ e = .allocation .scanOutOfOrder) := by
  have hf : p.family = r.family := ((Cidr.within_iff r p).mp hin).1.symm
  obtain ⟨all, hpage, -, hmem⟩ := blocksFrom_eq_take [r] (intToIP (r.last + 1) p.family).string p pageSize
  have hall : r ∈ all := by
    refine (hmem r).mpr ⟨List.mem_singleton_self r, hin, ?_⟩
    rw [hf]
    exact hr.2
  apply searchLoop_behind hcs (by simpa using hin)
  · apply List.eq_nil_iff_forall_not_mem.mpr
    intro c hc
    obtain ⟨hc, hm, -⟩ := mem_coveringBlocks.mp hc
    obtain rfl := List.mem_singleton.mp hc
    rw [hf] at hm
    exact hr.1 hm
  · rw [hpage, Ne, List.take_eq_nil_iff]
    rintro (h | rfl)
    · omega
    · simp at hall
  · intro c hc
    rw [hpage] at hc
    have hc' := ((hmem c).mp (List.mem_of_mem_take hc)).1
    obtain rfl := List.mem_singleton.mp hc'
    exact ⟨hc', Nat.lt_succ_self _⟩

theorem not_roomBelow_of_taken {r : Cidr} (hin : r.within p = true) (bound : ℕ) :
    ¬ RoomBelow p (FreeFrom p [r] p.addr) p.len bound := by
  rintro ⟨-, start, -, hfits⟩
  have hsize : wantedSize p p.len = p.size := by simp [wantedSize, Cidr.size]
  rw [hsize] at hfits
  obtain ⟨hf, haddr, hlast⟩ := (Cidr.within_iff r p).mp hin
  have hpos := p.size_pos
  have hle := r.addr_le_last
  have hfirst := (hfits.isFree start le_rfl (by omega)).1
  have hstop := (hfits.isFree (start + p.size - 1) (by omega) (by omega)).2.1
  have hfree := hfits.isFree r.addr (by unfold Cidr.last at *; omega) (by unfold Cidr.last at *; omega)
  exact hfree.2.2 r (List.mem_singleton_self r) ⟨hf, le_rfl, hle⟩

theorem boundedFirstFit_restarts {r : Cidr} (hcs : blocksIn digest x.rows = [r]) (hin : r.within p = true)
    (hr : Restarts r) (hsize : 0 < pageSize) (limit : ℕ) :
    Locked postgres Alone (.object k) (Db.poolState k) x
      (boundedFirstFit pageSize limit k digest [p.net] p.len none) (fun _ _ => False)
      (fun e _ => e = .searchDidNotAdvance ∨ e = .allocation .scanOutOfOrder) := by
  obtain ⟨hnew, hs⟩ := newScan_none p [r] p.len
  rw [boundedFirstFit_eq hnew]
  apply Locked.bind
  refine Locked.mono (Q := fun _ _ => False) ?_ (fun _ _ h => h.elim) fun _ _ h => h
  cases limit with
  | zero => exact Locked.throw (Or.inl rfl)
  | succ pages =>
    rw [searchLoop_succ]
    apply Locked.bind
    have hwhole : ¬ ∃ b ∈ [r], Whole b := by simpa using hr.not_whole
    apply (searchPass_turn (frozen_alone (.object k) k) hcs (by simpa using hin) hsize hs
      (fun l hl => by cases hl) (faithful_addr p)).mono
    · rintro s y ⟨rfl, hturn | ⟨hall, -⟩⟩
      · cases hturn with
        | moved b hb =>
          obtain rfl := List.mem_singleton.mp hb
          exact searchLoop_restarts hcs hin hr hsize pages
        | found b _ _ hroom => exact absurd hroom (not_roomBelow_of_taken hin b.addr)
        | ended hpast =>
          have hlast := hpast r (List.mem_singleton_self r)
          have haddr := ((Cidr.within_iff r p).mp hin).2.1
          have := r.addr_le_last
          omega
      · exact absurd hall hwhole
    · exact fun _ _ hall => absurd hall hwhole

def hosts (p : Cidr) (count : ℕ) (hcount : count ≤ p.size) (hm : ¬ p.MeetsMapped) : List Cidr :=
  List.ofFn fun i : Fin count =>
    have hlast : p.addr + i ≤ p.last := (p.lt_last_succ _).mpr (by omega)
    host p (p.addr + i) hlast (p.not_mapped_of_not_meets hm ⟨rfl, Nat.le_add_right _ _, hlast⟩)

theorem mem_hosts {count : ℕ} {hcount : count ≤ p.size} {hm : ¬ p.MeetsMapped} {c : Cidr}
    (hc : c ∈ hosts p count hcount hm) :
    ∃ i < count, c.family = p.family ∧ c.addr = p.addr + i ∧ c.last = p.addr + i := by
  obtain ⟨i, rfl⟩ := List.mem_ofFn.mp hc
  exact ⟨i, i.isLt, rfl, rfl, host_last _ _ _⟩

theorem hosts_covers {count i : ℕ} {hcount : count ≤ p.size} {hm : ¬ p.MeetsMapped} (hi : i < count) :
    ∃ c ∈ hosts p count hcount hm, c.Mem p.family (p.addr + i) := by
  refine ⟨_, List.mem_ofFn.mpr ⟨⟨i, hi⟩, rfl⟩, rfl, le_rfl, ?_⟩
  exact (host_last _ _ _).ge

theorem hosts_within {count : ℕ} {hcount : count ≤ p.size} {hm : ¬ p.MeetsMapped} :
    ∀ c ∈ hosts p count hcount hm, c.within p = true := by
  intro c hc
  obtain ⟨i, hi, hf, haddr, hlast⟩ := mem_hosts hc
  have hend := (p.lt_last_succ (p.addr + i)).mpr (by omega)
  exact (Cidr.within_iff c p).mpr ⟨hf, by omega, by omega⟩

theorem hosts_not_whole {count : ℕ} {hcount : count ≤ p.size} {hm : ¬ p.MeetsMapped} :
    ¬ ∃ b ∈ hosts p count hcount hm, Whole b := by
  rintro ⟨b, hb, haddr, hlast⟩
  obtain ⟨i, -, -, haddr', hlast'⟩ := mem_hosts hb
  have : 1 < 2 ^ b.family.bits := Nat.one_lt_two_pow (by cases b.family <;> decide)
  omega

theorem searchLoop_hosts {count i : ℕ} {hcount : count ≤ p.size} {hm : ¬ p.MeetsMapped}
    (hcs : blocksIn digest x.rows = hosts p count hcount hm) (pages : ℕ) (hpages : i + pages ≤ count)
    (hs : Sound p (FreeFrom p (hosts p count hcount hm) p.addr) p.addr n (p.addr + i) firstFree)
    (hw : Watermark (hosts p count hcount hm) (p.addr + i) last) :
    Locked postgres Alone (.object k) (Db.poolState k) x
      (searchLoop pageSize k digest pages (scanning p n floor (p.addr + i) last firstFree)) (fun _ _ => False)
      (fun e _ => e = .searchDidNotAdvance) := by
  induction pages generalizing i last firstFree with
  | zero => exact Locked.throw rfl
  | succ pages ih =>
    have hend : p.addr + i ≤ p.last := (p.lt_last_succ _).mpr (by omega)
    have hfaith : Faithful p (p.addr + i) :=
      ⟨hend.trans_lt p.last_lt, p.not_mapped_of_not_meets hm ⟨rfl, Nat.le_add_right _ _, hend⟩⟩
    rw [searchLoop_succ]
    apply Locked.bind
    apply (searchPass_covered (frozen_alone (.object k) k) hcs hosts_within hs hw hfaith
      (hosts_covers (by omega))).mono
    · rintro s y ⟨rfl, ⟨b, hb, hmem, last', firstFree', rfl, hs', hw'⟩ | ⟨hall, -⟩⟩
      · obtain ⟨j, -, -, haddr, hlast⟩ := mem_hosts hb
        have hnext : b.last + 1 = p.addr + (i + 1) := by
          have := hmem.2
          omega
        rw [hnext] at hs' hw' ⊢
        exact ih (by omega) hs' hw'
      · exact absurd hall hosts_not_whole
    · exact fun _ _ hall => absurd hall hosts_not_whole

theorem boundedFirstFit_hosts {count : ℕ} {hcount : count ≤ p.size} {hm : ¬ p.MeetsMapped}
    (hcs : blocksIn digest x.rows = hosts p count hcount hm) :
    Locked postgres Alone (.object k) (Db.poolState k) x
      (boundedFirstFit pageSize count k digest [p.net] n none) (fun _ _ => False)
      (fun e _ => e = .searchDidNotAdvance) := by
  obtain ⟨hnew, hs⟩ := newScan_none p (hosts p count hcount hm) n
  rw [boundedFirstFit_eq hnew]
  apply Locked.bind
  apply (@searchLoop_hosts p n k digest x none none none pageSize count 0 hcount hm hcs count (by omega) hs
    (fun l hl => by cases hl)).mono
  · exact fun _ _ h => h.elim
  · exact fun _ _ h => h

end

def takenDb (k : Key) (digest : String) (cs : List Cidr) : Db :=
  { Db.empty with rows := cs.mapIdx fun i c => claimRow k (toString i) digest c }

theorem blocksIn_takenDb (k : Key) (digest : String) (cs : List Cidr) :
    blocksIn digest ((takenDb k digest cs).poolRows k) = cs := by
  have hpool : ((takenDb k digest cs).rows.filter fun r => r.poolKey = k) = (takenDb k digest cs).rows := by
    apply List.filter_eq_self.mpr
    intro r hr
    obtain ⟨i, hi, rfl⟩ := List.mem_mapIdx.mp hr
    simp [claimRow]
  have hblocks : (((takenDb k digest cs).rows.map Row.unclaimed).filter (Row.blocks digest)) =
      (takenDb k digest cs).rows.map Row.unclaimed := by
    apply List.filter_eq_self.mpr
    intro r hr
    obtain ⟨r, hr', rfl⟩ := List.mem_map.mp hr
    obtain ⟨i, hi, rfl⟩ := List.mem_mapIdx.mp hr'
    simp [claimRow, Row.unclaimed, Row.blocks]
  rw [blocksIn, Db.poolRows, hpool, hblocks, List.map_map]
  apply List.ext_getElem
  · simp [takenDb]
  · intro i h h'
    simp [takenDb, claimRow, Row.unclaimed]

theorem not_decides {s : Db} {k : Key} {digest : String} {p : Cidr} {n : ℤ} {floor : Option IP}
    (h : Locked postgres Alone (.object k) (Db.poolState k) (s.poolState k)
      (boundedFirstFit searchPageSize searchPageLimit k digest [p.net] n floor) (fun _ _ => False)
      fun e _ => e = .searchDidNotAdvance ∨ e = .allocation .scanOutOfOrder) :
    ¬ Decides s k digest p n floor := by
  obtain ⟨e, hrun, he⟩ := runSearch_error h
  rintro (⟨r, hr⟩ | hr)
  · rw [hrun] at hr
    cases hr
  · rw [hrun] at hr
    rcases he with rfl | rfl
    · cases hr
    · cases hr

theorem floorBelow_none (p : Cidr) (cs : List Cidr) : FloorBelow p cs none :=
  fun ip hip => by cases hip

/-- Whatever its rows, floor and length, a search of the range decides, if every position of a scan of it prints
as itself and either its rows or its addresses are fewer than the turns of the loop. No other range that holds rows
is searched so. -/
theorem boundedFirstFit_decides_iff (k : Key) (digest : String) (p : Cidr) (count : ℕ) :
    (∀ (s : Db) (n : ℤ) (floor : Option IP), (∀ c ∈ blocksIn digest (s.poolRows k), c.within p = true) →
        (blocksIn digest (s.poolRows k)).length ≤ count → FloorBelow p (blocksIn digest (s.poolRows k)) floor →
        Decides s k digest p n floor) ↔
      count = 0 ∨ (Legible p ∧ min count p.size < searchPageLimit) := by
  constructor
  · intro h
    by_contra hc
    obtain ⟨hcount, hc⟩ := not_or.mp hc
    have htaken : ∀ cs : List Cidr, (∀ c ∈ cs, c.within p = true) → cs.length ≤ count →
        ∀ n : ℤ, Decides (takenDb k digest cs) k digest p n none := by
      intro cs hin hlength n
      apply h <;> rw [blocksIn_takenDb]
      · exact hin
      · exact hlength
      · exact floorBelow_none p cs
    by_cases hp : Legible p
    · have hlimit : searchPageLimit ≤ min count p.size := not_lt.mp fun hlt => hc ⟨hp, hlt⟩
      have hsize : searchPageLimit ≤ p.size := hlimit.trans (min_le_right _ _)
      refine not_decides ?_ (htaken (hosts p searchPageLimit hsize hp.2.1) hosts_within ?_ p.len)
      · apply (boundedFirstFit_hosts (blocksIn_takenDb k digest _)).mono
        · exact fun _ _ h => h
        · exact fun _ _ h => Or.inl h
      · rw [hosts, List.length_ofFn]
        exact hlimit.trans (min_le_left _ _)
    · obtain ⟨r, hin, hr⟩ := exists_restarts hp
      refine not_decides ?_ (htaken [r] (by simpa using hin) ?_ p.len)
      · exact boundedFirstFit_restarts (blocksIn_takenDb k digest [r]) hin hr (by decide) searchPageLimit
      · rw [List.length_singleton]
        omega
  · rintro (rfl | ⟨hp, hlimit⟩) s n floor hin hlength hfloor
    · have hcs := List.eq_nil_of_length_eq_zero (Nat.le_zero.mp hlength)
      rw [hcs] at hfloor
      exact decides_of_empty hcs hfloor
    · apply decides_of_legible hp hin
      exact (min_le_min_right _ hlength).trans_lt hlimit

def tenEight : Cidr := ⟨.v4, 10 * 2 ^ 24, 8, by decide, by decide, Cidr.tenNetwork_lt, Cidr.tenNetwork_unmapped⟩

theorem limit_le_tenEight : searchPageLimit ≤ tenEight.size := by decide

/-- The first hundred thousand addresses of 10.0.0.0/8 are taken; 10.1.134.160 is free. -/
theorem boundedFirstFit_tenEight :
    runSearch (takenDb edgeKey "tenant" (hosts tenEight searchPageLimit limit_le_tenEight (by decide))) edgeKey
        "tenant" tenEight 32 searchPageSize none searchPageLimit = .error .searchDidNotAdvance ∧
      Free tenEight (hosts tenEight searchPageLimit limit_le_tenEight (by decide))
        (tenEight.addr + searchPageLimit) := by
  constructor
  · obtain ⟨e, hrun, rfl⟩ := runSearch_error (boundedFirstFit_hosts (blocksIn_takenDb edgeKey "tenant" _))
    exact hrun
  · refine ⟨by decide, by decide, ?_⟩
    intro c hc hmem
    obtain ⟨i, hi, -, -, hlast⟩ := mem_hosts hc
    have := hmem.2.2
    omega

end Ipam.Allocator
