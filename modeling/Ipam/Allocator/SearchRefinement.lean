import Ipam.Allocator.SearchLoop

namespace Ipam.Allocator

open Allocation Database Transaction FirstFit

def runSearch (s : Db) (k : Key) (digest : String) (p : Cidr) (n : ℤ) (pageSize : ℕ) (floor : Option IP)
    (limit : ℕ) : Except Err ((IPNet × Option IP) × Db) :=
  postgres.run (boundedFirstFit pageSize limit k digest [p.net] n floor) s

theorem runSearch_error {s : Db} {k : Key} {digest : String} {p : Cidr} {n : ℤ} {floor : Option IP}
    {pageSize limit : ℕ} {X : Err → Prop}
    (h : Locked postgres Alone (.object k) (Db.poolState k) (s.poolState k)
      (boundedFirstFit pageSize limit k digest [p.net] n floor) (fun _ _ => False) fun e _ => X e) :
    ∃ e, runSearch s k digest p n pageSize floor limit = .error e ∧ X e := by
  have hrun := Locked.run h
  simp only [runSearch]
  cases hr : postgres.run (boundedFirstFit pageSize limit k digest [p.net] n floor) s with
  | ok r =>
    rw [hr] at hrun
    exact hrun.elim
  | error e =>
    rw [hr] at hrun
    obtain ⟨-, he⟩ := hrun
    exact ⟨e, rfl, he⟩

def SearchAgrees (s : Db) (k : Key) (digest : String) (p : Cidr) (n : ℤ) (pageSize : ℕ) (floor : Option IP) :
    Prop :=
  (∀ limit, runSearch s k digest p n pageSize floor limit ≠ .error (.allocation .scanOutOfOrder)) ∧
    ∃ pages, ∀ limit, pages ≤ limit →
      (runSearch s k digest p n pageSize floor limit).map (fun r => r.1.1) =
        (findFirstAvailableBlock [p.net] ((blocksIn digest (s.poolRows k)).map Cidr.net) n .firstFit).mapError
          .allocation

section

variable {p : Cidr} {cs : List Cidr} {n : ℤ} {k : Key} {digest : String} {pageSize : ℕ} {s : Db}

theorem settled_of_within (hin : ∀ c ∈ cs, c.within p = true) : ∀ c ∈ cs, Settled p c :=
  fun c hc => Or.inl (hin c hc)

theorem findFirstAvailableBlock_none (hin : ∀ c ∈ cs, c.within p = true)
    (h : Valid p n → Answer (Free p cs) (wantedSize p n) none) :
    findFirstAvailableBlock [p.net] (cs.map Cidr.net) n .firstFit = .error .poolExhausted := by
  by_cases hv : Valid p n
  · obtain ⟨o, ho, heq⟩ := findFirstAvailableBlock_firstFit (settled_of_within hin)
      (show p.len ≤ n.toNat by have := hv.1; omega) hv.toNat_le .firstFit rfl
    obtain rfl := ho.unique (h hv)
    rwa [Int.toNat_of_nonneg (by have := hv.1; omega)] at heq
  · apply findFirstAvailableBlock_invalid _ _ _ _ rfl
    by_contra hc
    exact hv ((valid_iff p n).mpr hc)

theorem findFirstAvailableBlock_some (hin : ∀ c ∈ cs, c.within p = true) (hv : Valid p n) {start : ℕ}
    (h : Answer (Free p cs) (wantedSize p n) (some start)) :
    findFirstAvailableBlock [p.net] (cs.map Cidr.net) n .firstFit =
      .ok (makeCIDR start n.toNat p.family hv.toNat_le) := by
  obtain ⟨o, ho, heq⟩ := findFirstAvailableBlock_firstFit (settled_of_within hin)
    (show p.len ≤ n.toNat by have := hv.1; omega) hv.toNat_le .firstFit rfl
  obtain rfl := ho.unique h
  rwa [Int.toNat_of_nonneg (by have := hv.1; omega)] at heq

theorem searchAgrees_of_stops (hin : ∀ c ∈ blocksIn digest (s.poolRows k), c.within p = true)
    (hsize : 0 < pageSize) (hend : p.last + 1 < 2 ^ p.family.bits)
    {floor : Option IP} (hmap : StopsUnmapped p (blocksIn digest (s.poolRows k)) (startOf p floor) n)
    (hfloor : FloorBelow p (blocksIn digest (s.poolRows k)) floor) :
    SearchAgrees s k digest p n pageSize floor := by
  have hlocked := fun limit => @boundedFirstFit_total p _ n Alone (.object k) k (s.poolState k) digest pageSize
    (frozen_alone (.object k) k) rfl hin hsize hend floor hmap limit
  have hfree : FreeFrom p (blocksIn digest (s.poolState k).rows) (startOf p floor) =
      Free p (blocksIn digest (s.poolRows k)) := hfloor.freeFrom_eq
  simp only [hfree] at hlocked
  have hrun := fun limit => Locked.run (hlocked limit)
  constructor
  · intro limit herr
    have := hrun limit
    simp only [runSearch] at herr
    rw [herr] at this
    obtain ⟨y, ⟨h, -⟩ | ⟨h, -⟩⟩ := this
    · cases h
    · cases h
  · refine ⟨(blocksIn digest (s.poolRows k)).length + 1, ?_⟩
    intro limit hlimit
    have := hrun limit
    simp only [runSearch]
    cases hr : postgres.run (boundedFirstFit pageSize limit k digest [p.net] n floor) s with
    | error e =>
      rw [hr] at this
      obtain ⟨y, ⟨-, hle, -⟩ | ⟨rfl, hnone⟩⟩ := this
      · have hle' : limit ≤ (blocksIn digest (s.poolRows k)).length := hle
        omega
      · rw [findFirstAvailableBlock_none hin hnone]
        rfl
    | ok r =>
      rw [hr] at this
      obtain ⟨-, hfound⟩ := this
      obtain ⟨hv, start, hans, heq⟩ := hfound.block
      rw [findFirstAvailableBlock_some hin hv hans, ← heq]
      rfl

theorem stopsUnmapped_of_room (hin : ∀ c ∈ cs, c.within p = true) (hrows : ∀ c ∈ cs, ¬ c.MeetsMapped)
    (h : ¬ ((∃ c ∈ cs, EndsBelowMapped c) ∧ ¬ RoomBelow p (Free p cs) n mappedStart)) {floor : Option IP}
    (hfloor : FloorBelow p cs floor) : StopsUnmapped p cs (startOf p floor) n := by
  rintro b hb hnone ⟨hp, hlo, hhi⟩
  rw [hfloor.freeFrom_eq] at hnone
  have hfam : b.family = .v6 := ((Cidr.within_iff b p).mp (hin b hb)).1.trans hp
  have haddr := b.addr_le_last
  have hlt : ¬ mappedStart ≤ b.last := fun hle => hrows b hb ⟨hfam, by omega, hle⟩
  have hstop : b.last + 1 = mappedStart := by omega
  apply h
  refine ⟨⟨b, hb, hfam, hstop⟩, ?_⟩
  rintro ⟨hv, start, hstart, hfits⟩
  have := hnone hv start hfits
  omega

theorem last_lt_mappedStart {c : Cidr} (hf : c.family = .v6) (h : ¬ c.MeetsMapped) (haddr : c.addr < mappedStart) :
    c.last < mappedStart := by
  by_contra hlast
  exact h ⟨hf, haddr.trans_le (Nat.le_add_right _ _), not_lt.mp hlast⟩

section

variable {floor last : Option ℕ} {firstFree : Option (ℕ × Family)} {x : PoolState}

theorem string_mappedStart : (intToIP mappedStart .v6).string = ⟨.v4, 0, by decide⟩ := by
  decide

theorem coveringBlocks_mappedStart (hfam : ∀ c ∈ cs, c.family = .v6) :
    coveringBlocks cs (intToIP mappedStart .v6).string p = [] := by
  apply List.eq_nil_iff_forall_not_mem.mpr
  intro c hc
  obtain ⟨hc, hm, -⟩ := mem_coveringBlocks.mp hc
  rw [string_mappedStart] at hm
  have := hm.1.symm.trans (hfam c hc)
  cases this

theorem searchPass_stuck (hcs : blocksIn digest x.rows = cs) (hin : ∀ c ∈ cs, c.within p = true)
    (hrows : ∀ c ∈ cs, ¬ c.MeetsMapped) {r : Cidr} (hr : r ∈ cs) (hends : EndsBelowMapped r) :
    Locked postgres Alone (.object k) (Db.poolState k) x
      (searchPass 1 k digest (scanning p n floor mappedStart last firstFree))
      (fun s y => y = x ∧ ∃ last', s = scanning p n floor mappedStart last' firstFree)
      (fun e _ => e = .allocation .scanOutOfOrder) := by
  have hfam : ∀ c ∈ cs, c.family = p.family := fun c hc => ((Cidr.within_iff c p).mp (hin c hc)).1
  have hp : p.family = .v6 := (hfam r hr).symm.trans hends.1
  -- every row of the pool sorts after an IPv4 address, so the page starts over
  obtain ⟨all, hpage, hsorted, hmem⟩ := blocksFrom_eq_take cs (intToIP mappedStart p.family).string p 1
  have hr' : r ∈ all := by
    refine (hmem r).mpr ⟨hr, hin r hr, ?_⟩
    rw [hp, string_mappedStart, hends.1, networkCmp_family_ne (by decide)]
    decide
  cases all with
  | nil => simp at hr'
  | cons d rest =>
    have hd := (hmem d).mp List.mem_cons_self
    have haddr : d.addr ≤ r.addr := by
      have hd' := sorted_map_range (fun c hc => hfam c ((hmem c).mp hc).1) hsorted
      rcases List.mem_cons.mp hr' with rfl | hr'
      · exact le_rfl
      · exact (List.pairwise_cons.mp hd').1 r.range (List.mem_map_of_mem hr')
    have hlast : d.last < mappedStart := by
      apply last_lt_mappedStart ((hfam d hd.1).trans hp) (hrows d hd.1)
      have := r.addr_le_last
      have := hends.2
      omega
    apply searchPass_behind (frozen_alone (.object k) k) hcs hin
    · rw [hp]
      exact coveringBlocks_mappedStart fun c hc => (hfam c hc).trans hp
    · simp [hpage]
    · rw [hpage]
      simpa using ⟨hd.1, hlast⟩

theorem searchLoop_stuck (hcs : blocksIn digest x.rows = cs) (hin : ∀ c ∈ cs, c.within p = true)
    (hrows : ∀ c ∈ cs, ¬ c.MeetsMapped) (hend : p.last + 1 < 2 ^ p.family.bits) {r : Cidr} (hr : r ∈ cs)
    (hends : EndsBelowMapped r) (hroom : ¬ RoomBelow p (Free p cs) n mappedStart) (pages : ℕ) {cursor : ℕ}
    (hcursor : (cursor < mappedStart ∧ Sound p (FreeFrom p cs p.addr) p.addr n cursor firstFree ∧ Watermark cs cursor last) ∨
      cursor = mappedStart) :
    Locked postgres Alone (.object k) (Db.poolState k) x
      (searchLoop 1 k digest pages (scanning p n floor cursor last firstFree)) (fun _ _ => False)
      (fun e _ => e = .searchDidNotAdvance ∨ e = .allocation .scanOutOfOrder) := by
  have hfam : ∀ c ∈ cs, c.family = .v6 := by
    intro c hc
    have hc' := ((Cidr.within_iff c p).mp (hin c hc)).1
    have hr' := ((Cidr.within_iff r p).mp (hin r hr)).1
    exact hc'.trans (hr'.symm.trans hends.1)
  induction pages generalizing cursor last firstFree with
  | zero => exact Locked.throw (Or.inl rfl)
  | succ pages ih =>
    rw [searchLoop_succ]
    apply Locked.bind
    rcases hcursor with ⟨hlt, hs, hw⟩ | rfl
    · have hfaith : Faithful p cursor :=
        ⟨by have := hs.le_last; omega, fun h => absurd h.2.1 (not_le.mpr hlt)⟩
      have hnear : ∀ b ∈ cs, Near 1 cs cursor b → b.addr < mappedStart := by
        rintro b - (h | h)
        · omega
        · have hends' := hends.2
          have hrb := h rfl r hr (by omega)
          have := r.addr_le_last
          omega
      apply (searchPass_turn (frozen_alone (.object k) k) hcs hin one_pos hs hw hfaith).mono
      · rintro s y ⟨rfl, hturn | ⟨hlast, -⟩⟩
        · cases hturn with
          | moved b hb hb' hle hs' hw' =>
            have hlast := last_lt_mappedStart (hfam b hb) (hrows b hb) (hnear b hb hb')
            apply ih
            rcases lt_or_eq_of_le (Nat.succ_le_of_lt hlast) with h | h
            · exact Or.inl ⟨h, hs', hw'⟩
            · exact Or.inr h
          | found b hb hb' hroom' =>
            obtain ⟨hv, start, hstart, hfits⟩ := hroom'
            exact absurd ⟨hv, start, hstart.trans (hnear b hb hb'), hfits⟩ hroom
          | ended hpast =>
            have := hpast r hr
            have := hends.2
            omega
        · exact absurd hlast (not_whole_of_end hin hend)
      · exact fun e y h => absurd h (not_whole_of_end hin hend)
    · apply (searchPass_stuck hcs hin hrows hr hends).mono
      · rintro s y ⟨rfl, last', rfl⟩
        exact ih (Or.inr rfl)
      · exact fun e y h => Or.inr h

end

theorem newScan_none (p : Cidr) (cs : List Cidr) (n : ℤ) :
    Scan.newScan [p.net] n none = .ok (scanning p n none p.addr none none) ∧
      Sound p (FreeFrom p cs p.addr) p.addr n p.addr none := by
  have hnew : Scan.newScan [p.net] n none = .ok (scanning p n none p.addr none none) := by
    simp only [Scan.newScan, Scan.enter, Cidr.cidrBounds_net]
    rfl
  refine ⟨hnew, ?_⟩
  obtain ⟨scan, hscan, hstart⟩ := newScan_freeFrom p cs n none
  obtain rfl := Except.ok.inj (hscan.symm.trans hnew)
  rcases hstart with ⟨-, hs⟩ | hfin
  · simpa [startOf] using hs
  · cases hfin.done

theorem not_searchAgrees_of_stuck (hin : ∀ c ∈ blocksIn digest (s.poolRows k), c.within p = true)
    (hrows : ∀ c ∈ blocksIn digest (s.poolRows k), ¬ c.MeetsMapped) (hend : p.last + 1 < 2 ^ p.family.bits)
    {r : Cidr} (hr : r ∈ blocksIn digest (s.poolRows k)) (hends : EndsBelowMapped r)
    (hroom : ¬ RoomBelow p (Free p (blocksIn digest (s.poolRows k))) n mappedStart) :
    ¬ SearchAgrees s k digest p n 1 none := by
  rintro ⟨horder, pages, hagree⟩
  obtain ⟨hnew, hsound⟩ := newScan_none p (blocksIn digest (s.poolRows k)) n
  have haddr : p.addr < mappedStart := by
    have h := ((Cidr.within_iff r p).mp (hin r hr)).2.1
    have := r.addr_le_last
    have := hends.2
    omega
  have hlocked : Locked postgres Alone (.object k) (Db.poolState k) (s.poolState k)
      (boundedFirstFit 1 pages k digest [p.net] n none) (fun _ _ => False)
      (fun e _ => e = .searchDidNotAdvance ∨ e = .allocation .scanOutOfOrder) := by
    rw [boundedFirstFit_eq hnew]
    apply Locked.bind
    apply (searchLoop_stuck rfl hin hrows hend hr hends hroom pages
      (Or.inl ⟨haddr, hsound, fun l hl => by cases hl⟩)).mono
    · exact fun _ _ h => h.elim
    · exact fun _ _ h => h
  obtain ⟨e, hrun, hcase⟩ := runSearch_error hlocked
  have := hagree pages le_rfl
  rw [hrun] at this
  rcases hcase with rfl | rfl
  · cases h : findFirstAvailableBlock [p.net] ((blocksIn digest (s.poolRows k)).map Cidr.net) n .firstFit with
    | ok b => rw [h] at this; cases this
    | error e => rw [h] at this; cases this
  · exact horder pages hrun

end

/-- The paged search agrees with the whole-set search for every page size and floor, unless rows run up to the
IPv4-mapped range and leave no room below it. -/
theorem boundedFirstFit_refines (s : Db) (k : Key) (digest : String) (p : Cidr) (n : ℤ)
    (hin : ∀ c ∈ blocksIn digest (s.poolRows k), c.within p = true)
    (hrows : ∀ c ∈ blocksIn digest (s.poolRows k), ¬ c.MeetsMapped) (hend : p.last + 1 < 2 ^ p.family.bits) :
    (∀ pageSize floor, 1 ≤ pageSize → FloorBelow p (blocksIn digest (s.poolRows k)) floor →
        SearchAgrees s k digest p n pageSize floor) ↔
      ¬ ((∃ c ∈ blocksIn digest (s.poolRows k), EndsBelowMapped c) ∧
        ¬ RoomBelow p (Free p (blocksIn digest (s.poolRows k))) n mappedStart) := by
  constructor
  · rintro h ⟨⟨r, hr, hends⟩, hroom⟩
    have hfloor : FloorBelow p (blocksIn digest (s.poolRows k)) none := fun ip hip => by cases hip
    exact not_searchAgrees_of_stuck hin hrows hend hr hends hroom (h 1 none le_rfl hfloor)
  · intro h pageSize floor hsize hfloor
    exact searchAgrees_of_stops hin hsize hend (stopsUnmapped_of_room hin hrows h hfloor) hfloor

def edgeKey : Key := .object "infra" .ippools "" "edge"

def edgePool : Cidr := ⟨.v6, 0xfffe * 2 ^ 32, 95, by decide, by decide, by decide, by decide⟩

def edgeHalf : Cidr := ⟨.v6, 0xfffe * 2 ^ 32, 96, by decide, by decide, by decide, by decide⟩

def claimRow (pool : Key) (name digest : String) (cidr : Cidr) : Row :=
  ⟨pool, .object "infra" .ipallocations "" name, some (.object "infra" .ipclaims "" name), cidr, digest, .claim,
    .delete⟩

def edgeDb : Db := { Db.empty with rows := [claimRow edgeKey "a" "tenant" edgeHalf] }

def edgeScan : Scan := scanning edgePool 97 none mappedStart (some edgeHalf.addr) none

theorem run_searchLoop_edgeScan (limit : ℕ) :
    postgres.run (searchLoop searchPageSize edgeKey "tenant" limit edgeScan) edgeDb =
      .error .searchDidNotAdvance := by
  induction limit with
  | zero => rfl
  | succ limit ih =>
    have hpass : postgres.run (searchPass searchPageSize edgeKey "tenant" edgeScan) edgeDb =
        .ok (edgeScan, edgeDb) := rfl
    have hloop : searchLoop searchPageSize edgeKey "tenant" (limit + 1) edgeScan =
        (searchPass searchPageSize edgeKey "tenant" edgeScan).bind
          (searchLoop searchPageSize edgeKey "tenant" limit) := rfl
    rw [hloop, Database.run_bind, hpass]
    exact ih

theorem run_boundedFirstFit_edgeDb (limit : ℕ) :
    runSearch edgeDb edgeKey "tenant" edgePool 97 searchPageSize none limit = .error .searchDidNotAdvance := by
  have hnew : Scan.newScan [edgePool.net] 97 none =
      .ok (scanning edgePool 97 none edgePool.addr none none) := by decide
  have hpass : postgres.run (searchPass searchPageSize edgeKey "tenant"
      (scanning edgePool 97 none edgePool.addr none none)) edgeDb = .ok (edgeScan, edgeDb) := rfl
  rw [runSearch, boundedFirstFit_eq hnew, Database.run_bind]
  cases limit with
  | zero => rfl
  | succ limit =>
    rw [searchLoop_succ, Database.run_bind, hpass]
    have hloop : postgres.run (searchLoop searchPageSize edgeKey "tenant" limit edgeScan) edgeDb =
        .error .searchDidNotAdvance := run_searchLoop_edgeScan limit
    simp only [Except.bind, hloop]

theorem boundedFirstFit_edgeDb_stuck :
    (∀ c ∈ blocksIn "tenant" (edgeDb.poolRows edgeKey), c.within edgePool = true ∧ ¬ c.MeetsMapped) ∧
      edgePool.last + 1 < 2 ^ edgePool.family.bits ∧
      findFirstAvailableBlock [edgePool.net] ((blocksIn "tenant" (edgeDb.poolRows edgeKey)).map Cidr.net) 97
        .firstFit = .ok (makeCIDR mappedStart 97 .v6 (by decide)) ∧
      ¬ SearchAgrees edgeDb edgeKey "tenant" edgePool 97 searchPageSize none := by
  refine ⟨by decide, by decide, by decide, ?_⟩
  rintro ⟨-, pages, hagree⟩
  have := hagree pages le_rfl
  rw [run_boundedFirstFit_edgeDb] at this
  cases this

def edgeQuarter : Cidr := ⟨.v6, 0xfffe * 2 ^ 32, 97, by decide, by decide, by decide, by decide⟩

def quarterDb : Db := { Db.empty with rows := [claimRow edgeKey "a" "tenant" edgeQuarter] }

theorem boundedFirstFit_refines_quarter :
    blocksIn "tenant" (quarterDb.poolRows edgeKey) = [edgeQuarter] ∧
      ∀ pageSize floor, 1 ≤ pageSize → FloorBelow edgePool [edgeQuarter] floor →
        SearchAgrees quarterDb edgeKey "tenant" edgePool 97 pageSize floor := by
  have hblocks : blocksIn "tenant" (quarterDb.poolRows edgeKey) = [edgeQuarter] := by decide
  refine ⟨hblocks, ?_⟩
  rw [← hblocks]
  apply (boundedFirstFit_refines quarterDb edgeKey "tenant" edgePool 97 (by decide) (by decide) (by decide)).mpr
  -- the row ends in the middle of the part below the mapped range
  rintro ⟨⟨c, hc, hends⟩, -⟩
  rw [hblocks, List.mem_singleton] at hc
  subst hc
  exact absurd hends (by decide)

end Ipam.Allocator
