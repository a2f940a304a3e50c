import Ipam.Allocation.ScanRange
import Ipam.Allocator.PoolSteps
import Ipam.Allocator.SearchLoop

namespace Ipam.Allocator

open Allocation Database Transaction FirstFit

section

variable {Others : List Lock → Db → Db → Prop} {guard : Lock} {k : Key} {x : PoolState} {p : Cidr}
  {digest : String} {n : ℤ} {pageSize : ℕ}

theorem feed_inRange_locked {bs : List Cidr} {s : Scan} (hs : InRange p n s) :
    Locked postgres Others guard (Db.poolState k) x (Prog.ofExcept .allocation (s.feed (bs.map Cidr.net)))
      (fun s y => y = x ∧ InRange p n s) (fun _ _ => True) := by
  cases h : s.feed (bs.map Cidr.net) with
  | error e => exact Locked.throw trivial
  | ok t => exact Locked.pure ⟨rfl, feed_inRange hs h⟩

theorem searchPage_inRange (F : PoolFrozen Others guard k) {s : Scan} (hs : InRange p n s)
    (parent : Cidr) (start : IP) :
    Locked postgres Others guard (Db.poolState k) x (searchPage pageSize k digest parent start s)
      (fun s y => y = x ∧ InRange p n s) (fun _ _ => True) := by
  have hexec : ∀ s : Db, s.poolState k = x → postgres.exec (.loadBlocksFrom k digest start.string parent pageSize) s =
      .ok (blocksFrom (blocksIn digest x.rows) start.string parent pageSize, []) := by
    rintro s rfl
    rfl
  apply Locked.read F hexec
  split
  · exact Locked.pure ⟨rfl, atEnd_inRange hs⟩
  · exact feed_inRange_locked hs

theorem searchPass_inRange (F : PoolFrozen Others guard k) {s : Scan} (hs : InRange p n s) :
    Locked postgres Others guard (Db.poolState k) x (searchPass pageSize k digest s)
      (fun s y => y = x ∧ InRange p n s) (fun _ _ => True) := by
  simp only [searchPass]
  split
  · exact Locked.pure ⟨rfl, hs⟩
  · rename_i parent start _
    cases hparent : parent.string with
    | none => exact Locked.throw trivial
    | some text =>
      have hexec : ∀ s : Db, s.poolState k = x → postgres.exec
          (.loadBlocksCovering k digest start.string text) s =
            .ok (coveringBlocks (blocksIn digest x.rows) start.string text, []) := by
        rintro s rfl
        rfl
      apply Locked.read F hexec
      apply Locked.bind
      apply (feed_inRange_locked hs).mono _ (fun _ _ h => h)
      rintro t y ⟨rfl, ht⟩
      split
      · exact Locked.pure ⟨rfl, ht⟩
      split
      · exact Locked.pure ⟨rfl, ht⟩
      · exact searchPage_inRange F ht text start

theorem searchLoop_inRange (F : PoolFrozen Others guard k) (pages : ℕ) {s : Scan}
    (hs : InRange p n s) :
    Locked postgres Others guard (Db.poolState k) x (searchLoop pageSize k digest pages s)
      (fun s y => y = x ∧ InRange p n s) (fun _ _ => True) := by
  induction pages generalizing s with
  | zero =>
    simp only [searchLoop]
    split
    · exact Locked.pure ⟨rfl, hs⟩
    · exact Locked.throw trivial
  | succ pages ih =>
    simp only [searchLoop]
    split
    · exact Locked.pure ⟨rfl, hs⟩
    · apply Locked.bind
      apply (searchPass_inRange F hs).mono _ (fun _ _ h => h)
      rintro t y ⟨rfl, ht⟩
      exact ih ht

def BlockFound (p : Cidr) (cs : List Cidr) (n : ℤ) (block : IPNet) : Prop :=
  ∃ start, ∃ h : BlockAt p n.toNat start, block = makeCIDR start n.toNat p.family h.le_bits ∧
    (¬ p.MeetsMapped → Fits (Free p cs) (wantedSize p n) start)

def NextFloor (p : Cidr) (cs : List Cidr) (hint next : Option IP) : Prop :=
  ¬ p.MeetsMapped → (∀ ip, next = some ip → Plain p ip.string) ∧
    (FloorBelow p cs hint → FloorBelow p cs (next.map IP.string))

theorem boundedFirstFit_inRange (F : PoolFrozen Others guard k) (hint : Option IP)
    (limit : ℕ) :
    Locked postgres Others guard (Db.poolState k) x (boundedFirstFit pageSize limit k digest [p.net] n hint)
      (fun r y => y = x ∧ ∃ start, ∃ h : BlockAt p n.toNat start,
        r.1 = makeCIDR start n.toNat p.family h.le_bits) (fun _ _ => True) := by
  obtain ⟨s, hnew, -⟩ := newScan_freeFrom p [] n hint
  rw [boundedFirstFit_eq hnew]
  apply Locked.bind
  apply (searchLoop_inRange F limit (newScan_inRange hnew)).mono _ (fun _ _ h => h)
  rintro t y ⟨rfl, ht⟩
  cases hres : t.getResult with
  | error e => exact Locked.throw trivial
  | ok block =>
    refine Locked.pure ⟨rfl, ?_⟩
    simp only [Scan.getResult] at hres
    split at hres
    · rename_i hdone
      split at hres
      · rename_i b hb
        obtain rfl := Except.ok.inj hres
        rcases ht with ⟨_, _, _, _, rfl, -⟩ | ht
        · cases hdone
        · obtain ⟨hv, start, hblock, heq⟩ := ht.2 b hb
          exact ⟨start, hblock, heq⟩
      · cases hres
    · cases hres

theorem ipToInt_string_intToIP {a : ℕ} (h : Faithful p a) : ipToInt (intToIP a p.family).string = a := by
  rw [string_intToIP h]
  obtain ⟨hlt, hm⟩ := h
  revert hlt hm
  cases p.family with
  | v4 => exact fun _ _ => rfl
  | v6 =>
    intro hlt hm
    have hdiv : ¬ a / 2 ^ 32 = v4InV6Prefix := fun hdiv => hm ⟨rfl, (mapped_iff_div a).mp hdiv⟩
    simp only [ipToInt, IP.to4, hdiv, if_false]

theorem blocksIn_within (hx : Based k p x) (hm : ¬ p.MeetsMapped) :
    ∀ c ∈ blocksIn digest x.rows, c.within p = true := by
  intro c hc
  obtain ⟨r, hr, rfl⟩ := List.mem_map.mp hc
  exact (hx.rows r (List.mem_filter.mp hr).1).2.within hm

theorem Found.blockFound {cs : List Cidr} {hint : Option IP} {r : IPNet × Option IP}
    (h : Found p (FreeFrom p cs (startOf p hint)) n r) : BlockFound p cs n r.1 := by
  obtain ⟨hv, start, hans, heq⟩ := h.block
  have hfits : Fits (Free p cs) (wantedSize p n) start :=
    ⟨hans.1.dvd, fun z hz hz' => FreeFrom.free (addr_le_startOf p hint) (hans.1.isFree z hz hz')⟩
  have hlen : p.len ≤ n.toNat := by
    have := hv.1
    omega
  exact ⟨start, BlockAt.of_fits hlen hv.toNat_le hfits, heq, fun _ => hfits⟩

theorem Found.nextFloor {cs : List Cidr} {hint : Option IP} {r : IPNet × Option IP}
    (h : Found p (FreeFrom p cs (startOf p hint)) n r) : NextFloor p cs hint r.2 := by
  intro hm
  have hnext : ∀ ip, r.2 = some ip → ∃ a, Faithful p a ∧ ip = intToIP a p.family ∧
      (FloorBelow p cs hint → ∀ z, Free p cs z → a ≤ z) := by
    intro ip hip
    obtain ⟨a, rfl, hfree, hle⟩ := h.next ip hip
    have hmem : Free p cs a := FreeFrom.free (addr_le_startOf p hint) hfree
    refine ⟨a, faithful_of_mem hm hmem.1 hmem.2.1, rfl, ?_⟩
    intro hfloor z hz
    rw [hfloor.freeFrom_eq] at hle
    exact hle z hz
  constructor
  · intro ip hip
    obtain ⟨a, ha, rfl, -⟩ := hnext ip hip
    rw [string_intToIP ha]
    exact ⟨rfl, ha.2⟩
  · intro hfloor ip hip z hz
    obtain ⟨next, hr, rfl⟩ := Option.map_eq_some_iff.mp hip
    obtain ⟨a, ha, rfl, hle⟩ := hnext next hr
    rw [ipToInt_string_intToIP ha]
    exact hle hfloor z hz

theorem boundedFirstFit_locked (F : PoolFrozen Others guard k) (hx : Based k p x)
    (hsize : 0 < pageSize) (hint : Option IP) (limit : ℕ) :
    Locked postgres Others guard (Db.poolState k) x (boundedFirstFit pageSize limit k digest [p.net] n hint)
      (fun r y => y = x ∧ BlockFound p (blocksIn digest x.rows) n r.1 ∧
        NextFloor p (blocksIn digest x.rows) hint r.2) (fun _ _ => True) := by
  by_cases hm : p.MeetsMapped
  · apply (boundedFirstFit_inRange F hint limit).mono _ (fun _ _ h => h)
    rintro r y ⟨rfl, start, hblock, heq⟩
    exact ⟨rfl, ⟨start, hblock, heq, fun h => absurd hm h⟩, fun h => absurd hm h⟩
  · apply (boundedFirstFit_sound F rfl (blocksIn_within hx hm) hsize hm hint limit).mono _ (fun _ _ h => h)
    rintro r y ⟨rfl, hfound⟩
    exact ⟨rfl, hfound.blockFound, hfound.nextFloor⟩

theorem Cidr.string_ip (p : Cidr) : p.ip.string = p.ip := by
  obtain ⟨family, addr, len, len_le, aligned, addr_lt, unmapped⟩ := p
  cases family with
  | v4 => rfl
  | v6 => exact if_neg (unmapped rfl)

structure FloorsOnly (emptyDigest : String) (k : Key) (p : Cidr) (x y : PoolState) : Prop where
  steps : PoolSteps emptyDigest k p x y
  rows : y.rows = x.rows
  pool : y.pool = x.pool
  consumed : y.consumed = x.consumed

theorem lockFloor_locked (F : PoolFrozen Others guard k) {floor : IP}
    (h : floorAt x.floors digest = some floor) :
    Locked postgres Others guard (Db.poolState k) x (send (.lockFloor k digest))
      (fun observed y => y = x ∧ observed = some floor) (fun _ _ => False) := by
  have hexec : ∀ s : Db, s.poolState k = x → postgres.exec (.lockFloor k digest) s = .ok (some floor, []) := by
    rintro s rfl
    rw [← h]
    rfl
  exact Locked.read F hexec (Locked.pure ⟨rfl, rfl⟩)

theorem lockSearchFloor_locked (emptyDigest : String) (F : PoolFrozen Others guard k) (hpool : x.pool ≠ none)
    (hd : digest ≠ spaceAll) :
    Locked postgres Others guard (Db.poolState k) x (lockSearchFloor k digest p.ip)
      (fun observed y => FloorsOnly emptyDigest k p x y ∧
        ∃ floor, observed = some floor ∧ floorAt y.floors digest = some floor) (fun _ _ => False) := by
  apply locked_seedFloor F digest p.ip.string (fun h => hpool h)
  · intro hsome
    obtain ⟨floor, hfloor⟩ := Option.ne_none_iff_exists'.mp hsome
    apply (lockFloor_locked F hfloor).mono _ (fun _ _ h => h)
    rintro observed z ⟨rfl, rfl⟩
    exact ⟨⟨.refl, rfl, rfl, rfl⟩, floor, rfl, hfloor⟩
  · intro hnone
    rw [Cidr.string_ip]
    have hfloor : floorAt (x.floors ++ [(digest, p.ip)]) digest = some p.ip := by
      simp only [floorAt] at hnone ⊢
      simp [List.lookup_append, hnone]
    apply (lockFloor_locked F hfloor).mono _ (fun _ _ h => h)
    rintro observed z ⟨rfl, rfl⟩
    exact ⟨⟨.single (.seedFloor hd hnone), rfl, rfl, rfl⟩, p.ip, rfl, hfloor⟩

theorem raiseSearchFloor_locked (emptyDigest : String) (F : PoolFrozen Others guard k) (hd : digest ≠ spaceAll)
    {observed : IP} {next : Option IP} (hobserved : floorAt x.floors digest = some observed)
    (hnext : NextFloor p (blocksIn digest x.rows) (some observed) next) :
    Locked postgres Others guard (Db.poolState k) x (raiseSearchFloor k digest (some observed) next)
      (fun _ y => FloorsOnly emptyDigest k p x y) (fun _ _ => False) := by
  cases next with
  | none => exact Locked.pure ⟨.refl, rfl, rfl, rfl⟩
  | some next =>
    apply locked_raiseFloor F digest next.string observed.string
    · exact fun _ => Locked.pure ⟨.refl, rfl, rfl, rfl⟩
    · intro hfloor
      have heq : observed.string = observed := Option.some.inj (hfloor.symm.trans hobserved)
      refine Locked.pure ⟨.single (.raiseFloor hd hfloor (fun hm => (hnext hm).1 next rfl) ?_), rfl, rfl, rfl⟩
      rw [heq]
      exact fun hm => (hnext hm).2

theorem findFirstAvailableBlock_found (hx : Based k p x) {s : Strategy} {block : IPNet}
    (h : findFirstAvailableBlock [p.net] ((blocksIn digest x.rows).map Cidr.net) n s = .ok block) :
    BlockFound p (blocksIn digest x.rows) n block := by
  have hset : ∀ c ∈ blocksIn digest x.rows, Settled p c := by
    intro c hc
    obtain ⟨r, hr, rfl⟩ := List.mem_map.mp hc
    exact (hx.rows r (List.mem_filter.mp hr).1).2.settled
  obtain ⟨m, hm, rfl, hlen, start, rfl, hfits⟩ := findFirstAvailableBlock_sound hset h
  exact ⟨start, BlockAt.of_fits hlen hm hfits, rfl, fun _ => hfits⟩

theorem findBlock_locked (emptyDigest : String) (F : PoolFrozen Others guard k)
    (hx : Based k p x) (strategy : Strategy) :
    Locked postgres Others guard (Db.poolState k) x (findBlock k digest [p.net] n strategy)
      (fun block y => FloorsOnly emptyDigest k p x y ∧ BlockFound p (blocksIn digest x.rows) n block)
      (fun _ _ => True) := by
  have hpool : x.pool ≠ none := hx.pool_ne_none
  have hsize : 0 < searchPageSize := by decide
  simp only [findBlock]
  split
  · have hexec : ∀ s : Db, s.poolState k = x → postgres.exec (.loadAllocations k digest) s =
        .ok (blocksIn digest x.rows, []) := by
      rintro s rfl
      rfl
    apply Locked.read F hexec
    cases h : findFirstAvailableBlock [p.net] ((blocksIn digest x.rows).map Cidr.net) n strategy with
    | error e => exact Locked.throw trivial
    | ok block => exact Locked.pure ⟨⟨.refl, rfl, rfl, rfl⟩, findFirstAvailableBlock_found hx h⟩
  split
  · rename_i hd
    subst hd
    apply Locked.bind
    apply (boundedFirstFit_locked F hx hsize none _).mono _ (fun _ _ h => h)
    rintro r y ⟨rfl, hfound, -⟩
    exact Locked.pure ⟨⟨.refl, rfl, rfl, rfl⟩, hfound⟩
  · rename_i hd
    apply Locked.bind
    apply (lockSearchFloor_locked emptyDigest F hpool hd).mono _ (fun _ _ h => h.elim)
    rintro observed y ⟨hfloors, floor, rfl, hfloor⟩
    have hy : Based k p y := ⟨hfloors.pool ▸ hx.pool, hfloors.rows ▸ hx.rows⟩
    apply Locked.bind
    apply (boundedFirstFit_locked F hy hsize (some floor) _).mono _ (fun _ _ h => h)
    rintro r z ⟨rfl, hfound, hnext⟩
    apply Locked.bind
    apply (raiseSearchFloor_locked emptyDigest F hd hfloor hnext).mono _ (fun _ _ h => h.elim)
    rintro _ w hraise
    refine Locked.pure ⟨⟨hfloors.steps.trans hraise.steps, ?_, ?_, ?_⟩, hfloors.rows ▸ hfound⟩
    · rw [hraise.rows, hfloors.rows]
    · rw [hraise.pool, hfloors.pool]
    · rw [hraise.consumed, hfloors.consumed]

theorem BlockFound.apart {cs : List Cidr} {block : IPNet} {b : Cidr} (h : BlockFound p cs n block)
    (hb : block.string = some b) (hm : ¬ p.MeetsMapped) : ∀ c ∈ cs, c.overlaps b = false := by
  obtain ⟨start, hblock, rfl, hfits⟩ := h
  have hpos := wantedSize_pos p n
  have hfree := (hfits hm).isFree
  have hmapped : ¬ Mapped p.family start :=
    p.not_mapped_of_not_meets hm (hfree start le_rfl (by omega)).mem
  rw [string_makeCIDR hblock hmapped] at hb
  obtain rfl := Option.some.inj hb
  intro c hc
  by_contra hover
  obtain ⟨f, z, hcz, hbz⟩ := (c.overlaps_iff_mem _).mp (by simpa using hover)
  obtain ⟨rfl, hlo, hhi⟩ := hbz
  have hlt := ((hblock.cidr hmapped).lt_last_succ z).mp hhi
  exact (hfree z hlo hlt).2.2 c hc hcz

theorem BlockFound.cutFrom {cs : List Cidr} {block : IPNet} {b : Cidr} (h : BlockFound p cs n block)
    (hb : block.string = some b) : b.CutFrom p := by
  obtain ⟨start, hblock, rfl, -⟩ := h
  exact ⟨_, start, hblock, hb⟩

theorem BlockFound.net {cs : List Cidr} {block : IPNet} {b : Cidr} (h : BlockFound p cs n block)
    (hb : block.string = some b) (hm : ¬ p.MeetsMapped) : block = b.net ∧ b.within p = true ∧ b.len = n.toNat := by
  obtain ⟨start, hblock, rfl, hfits⟩ := h
  have hpos := wantedSize_pos p n
  have hmapped : ¬ Mapped p.family start :=
    p.not_mapped_of_not_meets hm ((hfits hm).isFree start le_rfl (by omega)).mem
  rw [string_makeCIDR hblock hmapped] at hb
  obtain rfl := Option.some.inj hb
  exact ⟨makeCIDR_eq hblock.lt, hblock.cidr_within hmapped, rfl⟩

end

end Ipam.Allocator
