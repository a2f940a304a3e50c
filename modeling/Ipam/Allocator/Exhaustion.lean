import Ipam.Allocator.ReleaseLedger
import Ipam.Allocator.SerialHistory

namespace Ipam.Allocation

open FirstFit

theorem feedOne_error {s : Scan} {b : IPNet} {e : Error} (h : s.feedOne b = .error e) : e = .scanOutOfOrder := by
  simp only [Scan.feedOne] at h
  repeat' split at h
  all_goals cases h
  rfl

theorem feed_error {s : Scan} {bs : List IPNet} {e : Error} (h : s.feed bs = .error e) : e ≠ .poolExhausted := by
  simp only [Scan.feed] at h
  split at h
  · cases h
    simp
  · induction bs generalizing s with
    | nil => cases h
    | cons b bs ih =>
      simp only [Scan.feedAll] at h
      split at h
      · cases h
      · cases hb : s.feedOne b with
        | error e' =>
          rw [hb] at h
          obtain rfl := Except.error.inj h
          rw [feedOne_error hb]
          simp
        | ok t =>
          rw [hb] at h
          by_cases hdone : t.done = true
          · cases bs with
            | nil => cases h
            | cons c bs =>
              change t.feedAll (c :: bs) = .error e at h
              simp only [Scan.feedAll, hdone, if_true] at h
              cases h
          · exact ih hdone h

theorem consumptionDelta_ok (parents overlapping : List IPNet) (block : IPNet) :
    ∃ n, consumptionDelta parents overlapping block = .ok n :=
  ⟨_, rfl⟩

theorem findFirstAvailableBlock_exhausted {p : Cidr} {cs : List Cidr} (hset : ∀ c ∈ cs, Settled p c) {n : ℕ}
    (hp : p.len ≤ n) (hn : n ≤ p.family.bits) {s : Strategy} {e : Error}
    (h : findFirstAvailableBlock [p.net] (cs.map Cidr.net) n s = .error e) :
    Answer (Free p cs) (blockSize n p.family.bits) none := by
  have hfits : fitsOf p.net (viewParent p.net (cs.map Cidr.net)) n = [] := by
    simp only [findFirstAvailableBlock, List.cons_ne_nil, if_false] at h
    split at h
    · split at h
      · cases h
      · rename_i hnone
        simp only [List.findSome?_cons, List.findSome?_nil] at hnone
        split at hnone
        · cases hnone
        · rename_i hfirst
          exact List.head?_eq_none_iff.mp hfirst
    · split at h
      · cases h
      · rename_i hnone
        have hcandidates := selectBlock_none hnone
        simp only [viewPool, List.map_cons, List.map_nil, List.zipIdx_singleton, List.flatMap_singleton,
          candidatesOf, List.map_eq_nil_iff] at hcandidates
        exact hcandidates
  -- the first-fit search of the same pool then fails too
  obtain ⟨o, hanswer, hsearch⟩ := findFirstAvailableBlock_firstFit hset hp hn .firstFit rfl
  rw [findFirstAvailableBlock_singleton _ _ _ _ rfl] at hsearch
  simp only [firstFitIn, hfits, List.head?_nil, Option.map_none] at hsearch
  cases o with
  | none => exact hanswer
  | some start => cases hsearch

end Ipam.Allocation

namespace Ipam.Allocator

open Allocation Database Transaction FirstFit

def Unexhausted (e : Err) : Prop :=
  e ≠ .allocation .poolExhausted

theorem insertRow_unexhausted {s : Db} {r : Row} {e : Err} (h : insertRow s r = .error e) : Unexhausted e := by
  obtain ⟨rfl, -⟩ | ⟨rfl, -⟩ | ⟨rfl, -⟩ | ⟨rfl, -⟩ := insertRow_error h <;> simp [Unexhausted]

theorem exec_unexhausted {q : Stmt} {s : Db} {e : Err} (h : exec q s = .error e) : Unexhausted e := by
  have hrow : ∀ (r : Row) {β : Type} (f : List Effect → β), (insertRow s r).map f = .error e → Unexhausted e := by
    intro r β f hmap
    cases hins : insertRow s r with
    | error e' =>
      rw [hins] at hmap
      obtain rfl := Except.error.inj hmap
      exact insertRow_unexhausted hins
    | ok es =>
      rw [hins] at hmap
      cases hmap
  cases q with
  | insertAllocation r => exact hrow r _ h
  | insertReservation r =>
    simp only [exec] at h
    split at h
    · cases h
    · exact hrow r _ h
  | _ =>
    simp only [exec] at h
    repeat' split at h
    all_goals cases h
    all_goals simp [Unexhausted]

theorem send_unexhausted (q : Stmt) : Raises postgres Unexhausted (send q) :=
  Raises.call fun _ _ h => exec_unexhausted h

section

variable (ed : String) (k : Key) (digest : String) (parents : List IPNet)

theorem feed_unexhausted (s : Scan) (bs : List IPNet) :
    Raises postgres Unexhausted (Prog.ofExcept .allocation (s.feed bs) : Tx Scan) := by
  apply Raises.ofExcept
  intro e he heq
  exact feed_error he (Err.allocation.inj heq)

theorem searchPass_unexhausted (pageSize : ℕ) (s : Scan) :
    Raises postgres Unexhausted (searchPass pageSize k digest s) := by
  simp only [searchPass]
  split
  · trivial
  apply (Raises.ofOption (by simp [Unexhausted]) _).bind
  intro text
  apply (send_unexhausted (.loadBlocksCovering k digest _ text)).bind
  intro covering
  apply (feed_unexhausted _ _).bind
  intro t
  refine .ite trivial (.ite trivial ?_)
  apply (send_unexhausted (.loadBlocksFrom k digest _ text pageSize)).bind
  intro (page : List Cidr)
  exact .ite trivial (feed_unexhausted t _)

theorem searchLoop_unexhausted (pageSize pages : ℕ) (s : Scan) :
    Raises postgres Unexhausted (searchLoop pageSize k digest pages s) := by
  induction pages generalizing s with
  | zero => exact .ite trivial (by simp [Raises, Unexhausted])
  | succ pages ih => exact .ite trivial ((searchPass_unexhausted k digest pageSize s).bind ih)

theorem loadOverlapping_unexhausted (block : IPNet) : Raises postgres Unexhausted (loadOverlapping k block) :=
  (Raises.ofOption (by simp [Unexhausted]) _).bind fun _ => send_unexhausted _

theorem consumedOrSeed_unexhausted : Raises postgres Unexhausted (consumedOrSeed k parents) := by
  apply (send_unexhausted (.readConsumed k)).bind
  intro recorded
  cases recorded with
  | some base => trivial
  | none =>
    apply (send_unexhausted (.loadAllocations k spaceAll)).bind
    intro existing
    rw [measure_unreserved]
    trivial

theorem consumptionAfterAllocate_unexhausted (block : IPNet) :
    Raises postgres Unexhausted (consumptionAfterAllocate k parents block) := by
  apply (loadOverlapping_unexhausted k block).bind
  intro overlapping
  apply (consumedOrSeed_unexhausted k parents).bind
  intro base
  obtain ⟨delta, hdelta⟩ := consumptionDelta_ok parents (overlapping.map Cidr.net) block
  rw [addedConsumption, hdelta]
  trivial

theorem reserveBlocks_unexhausted (blocks : List IPNet) (consumed : Option ℕ) :
    Raises postgres Unexhausted (reserveBlocks ed k parents blocks consumed) := by
  induction blocks generalizing consumed with
  | nil => trivial
  | cons block rest ih =>
    apply (consumptionAfterAllocate_unexhausted k parents block).bind
    intro next
    have hinsert : Raises postgres Unexhausted (insertReservation ed k block) :=
      (Raises.ofOption (by simp [Unexhausted]) _).bind fun _ => send_unexhausted _
    apply hinsert.bind
    intro inserted
    exact .ite ((send_unexhausted (.writeConsumed k next)).bind fun _ => ih _) (ih _)

theorem materialiseReservations_unexhausted (pool : IPPool) :
    Raises postgres Unexhausted (materialiseReservations ed k pool parents) := by
  refine .ite trivial ?_
  apply (send_unexhausted (.holdsReservations k)).bind
  intro (held : Bool)
  refine .ite trivial ?_
  apply Raises.bind
  · apply Raises.ofExcept
    intro e he heq
    exact blocksIn_error he (Err.allocation.inj heq)
  intro blocks
  apply (reserveBlocks_unexhausted ed k parents blocks none).bind
  intro consumed
  cases consumed with
  | none => trivial
  | some consumed => exact send_unexhausted _

theorem recordBlock_unexhausted (pool : IPPool) (block : IPNet) (row : Cidr → Row) :
    Raises postgres Unexhausted (recordBlock pool parents block row k) := by
  apply (consumptionAfterAllocate_unexhausted k parents block).bind
  intro consumed
  apply (Raises.ofOption (by simp [Unexhausted]) _).bind
  intro text
  apply (send_unexhausted (.insertAllocation (row text))).bind
  intro _
  apply (send_unexhausted (.writeConsumed k consumed)).bind
  intro _
  exact (send_unexhausted _).bind fun _ => trivial

end

section

variable {Others : List Lock → Db → Db → Prop} {guard : Lock} {k : Key} {x : PoolState} {p : Cidr} {digest : String}
  {n : ℤ}

def Exhausts (p : Cidr) (free : ℕ → Prop) (n : ℤ) (e : Err) : Prop :=
  e = .allocation .poolExhausted → Valid p n → Answer free (wantedSize p n) none

theorem Unexhausted.exhausts {free : ℕ → Prop} {e : Err} (h : Unexhausted e) : Exhausts p free n e :=
  fun heq => absurd heq h

theorem boundedFirstFit_exhausted (F : PoolFrozen Others guard k) (hx : Based k p x)
    (hm : ¬ p.MeetsMapped) (hint : Option IP) (limit : ℕ) :
    Locked postgres Others guard (Db.poolState k) x (boundedFirstFit searchPageSize limit k digest [p.net] n hint)
      (fun r y => y = x ∧ Found p (FreeFrom p (blocksIn digest x.rows) (startOf p hint)) n r)
      (fun e _ => Exhausts p (FreeFrom p (blocksIn digest x.rows) (startOf p hint)) n e) := by
  obtain ⟨s, hnew, hstart⟩ := newScan_freeFrom p (blocksIn digest x.rows) n hint
  rw [boundedFirstFit_eq hnew]
  apply Locked.bind
  have hloop := searchLoop_sound F rfl (blocksIn_within hx hm) (by decide : 0 < searchPageSize) hm
    (addr_le_startOf p hint) limit (search_starts hstart)
  apply ((searchLoop_unexhausted k digest searchPageSize limit s).locked hloop).mono
  · rintro t y ⟨rfl, hfin⟩
    exact (searchResult_locked hfin).mono (fun _ _ h => h) fun _ _ h _ => h.2
  · exact fun _ _ h => h.exhausts

theorem findBlock_exhausted (F : PoolFrozen Others guard k) (hm : ¬ p.MeetsMapped)
    (hx : Floored k p x) (strategy : Strategy) (hd : digest ≠ spaceAll) :
    Locked postgres Others guard (Db.poolState k) x (findBlock k digest [p.net] n strategy) (fun _ _ => True)
      (fun e _ => Exhausts p (Free p (blocksIn digest x.rows)) n e) := by
  have hbased := hx.1.based
  simp only [findBlock]
  split
  · have hexec : ∀ s : Db, s.poolState k = x → postgres.exec (.loadAllocations k digest) s =
        .ok (blocksIn digest x.rows, []) := by
      rintro s rfl
      rfl
    apply Locked.read F hexec
    cases h : findFirstAvailableBlock [p.net] ((blocksIn digest x.rows).map Cidr.net) n strategy with
    | ok block => exact Locked.pure trivial
    | error e =>
      apply Locked.throw
      intro _ hv
      have hset : ∀ c ∈ blocksIn digest x.rows, Settled p c := by
        intro c hc
        obtain ⟨r, hr, rfl⟩ := List.mem_map.mp hc
        exact (hbased.rows r (List.mem_filter.mp hr).1).2.settled
      have hlen : p.len ≤ n.toNat ∧ (n.toNat : ℤ) = n := by
        simp only [Valid] at hv
        omega
      rw [← hlen.2] at h
      exact findFirstAvailableBlock_exhausted hset hlen.1 hv.toNat_le h
  apply Locked.bind
  apply (lockSearchFloor_locked "" F hbased.pool_ne_none hd).mono _ (fun _ _ h => h.elim)
  rintro observed y ⟨hfloors, floor, rfl, hfloor⟩
  have hsound : FloorsSound p y := hfloors.steps.preserves (fun _ _ h hs => h.step hm hs) hx.2
  have hy : Based k p y := ⟨hfloors.pool ▸ hbased.pool, hfloors.rows ▸ hbased.rows⟩
  have hbelow := hsound.below digest floor hfloor
  apply Locked.bind
  apply (boundedFirstFit_exhausted F hy hm (some floor) _).mono
  · rintro r z ⟨rfl, hfound⟩
    apply Locked.bind
    apply (raiseSearchFloor_locked "" F hd hfloor hfound.nextFloor).mono _ (fun _ _ h => h.elim)
    exact fun _ _ _ => Locked.pure trivial
  · intro e _ he
    rwa [hbelow.freeFrom_eq, hfloors.rows] at he

end

section

variable {ed : String} {k : Key} {p : Cidr} {d : String} {n : ℤ} {s : Db} {pool : IPPool}

theorem findBlock_noFreeBlock (hm : ¬ p.MeetsMapped) (hs : Floored k p (s.poolState k)) {strategy : Strategy}
    (hd : d ≠ spaceAll) (hrun : postgres.run (findBlock k d [p.net] n strategy) s = .error (.allocation .poolExhausted)) :
    ¬ ∃ b, FreeBlock k p s.rows d n b := by
  have hsearch := (@findBlock_exhausted _ _ k _ p d n (frozen_alone (.object k) k) hm hs strategy hd).run
  rw [hrun] at hsearch
  obtain ⟨_, hexhausts⟩ := hsearch
  rintro ⟨b, hb⟩
  obtain ⟨hv, hfits⟩ := hb.fits hd
  exact hexhausts rfl hv b.addr hfits

theorem materialiseReservations_fresh {parents : List IPNet} (h : s.ledger.objects k = some (.pool pool.core)) :
    postgres.After s (materialiseReservations ed k pool parents) fun _ s' => ∀ r ∈ s'.rows, r ∈ s.rows ∨
      (∀ o ∈ s.rows, o.poolKey = k → o.purpose ≠ .reservation) ∧
        ∃ blocks, (reservationFrom pool.reservations).blocksIn parents = .ok blocks ∧
          ∃ block ∈ blocks, block.string = some r.cidr := by
  cases hzero : (reservationFrom pool.reservations).isZero with
  | true =>
    rw [materialiseReservations, if_pos hzero]
    exact .pure fun r hr => .inl hr
  | false =>
    by_cases hheld : ∀ o ∈ s.rows, o.poolKey = k → o.purpose ≠ .reservation
    · refine (materialiseReservations_after h).mono ?_
      intro _ s' hmat r hr
      obtain ⟨blocks, hblocks, hwithheld⟩ := hmat.withheld hzero hheld
      refine (hwithheld.fresh r hr).imp_right ?_
      rintro ⟨block, hblock, hcidr, -⟩
      exact ⟨hheld, blocks, hblocks, block, hblock, hcidr⟩
    · push Not at hheld
      obtain ⟨o, ho, hkey, hpurpose⟩ := hheld
      have hany : (s.poolRows k).any (fun r => r.purpose = .reservation) = true :=
        List.any_eq_true.mpr ⟨o.unclaimed, List.mem_map.mpr ⟨o, List.mem_filter.mpr ⟨ho, by simpa using hkey⟩, rfl⟩,
          decide_eq_true hpurpose⟩
      rw [materialiseReservations, if_neg (by simp [hzero])]
      apply Database.After.step
      intro held es hexec
      obtain ⟨rfl, rfl⟩ := Prod.mk.inj (Except.ok.inj hexec)
      refine .ite (fun _ => .pure fun r hr => .inl hr) ?_
      exact fun hnot => absurd hany hnot

structure Room (k : Key) (pool : IPPool) (p : Cidr) (rows : List Row) (d : String) (n : ℤ) (b : Cidr) : Prop where
  free : FreeBlock k p rows d n b
  unreserved : (∀ r ∈ rows, r.poolKey = k → r.purpose ≠ .reservation) →
    ∀ blocks, (reservationFrom pool.reservations).blocksIn [p.net] = .ok blocks →
      ∀ block ∈ blocks, ∀ c, block.string = some c → c.overlaps b = false

theorem allocatePrefix_noRoom {req : PrefixRequest} (hed : ed ≠ "") (hm : ¬ p.MeetsMapped)
    (hpool : s.pool req.poolKey = some pool) (hcidr : pool.allocatedCIDR = some p)
    (hs : Floored req.poolKey p (s.poolState req.poolKey))
    (hrun : postgres.run (allocatePrefix ed req) s = .error (.allocation .poolExhausted)) :
    ¬ ∃ b, Room req.poolKey pool p s.rows (searchDigest ed req.scopeDigest) req.prefixLen b := by
  have hd : searchDigest ed req.scopeDigest ≠ spaceAll := by
    simp only [searchDigest, spaceAll]
    split
    · exact hed
    · assumption
  have hstored : s.ledger.objects req.poolKey = some (.pool pool.core) := by
    apply stored_of_asPool
    rw [pool_eq_asPool] at hpool
    obtain ⟨o, ho, hpool⟩ := Option.bind_eq_some_iff.mp hpool
    rw [ho]
    exact hpool
  rw [allocatePrefix_eq, withPool_run hpool hcidr, takeBlock] at hrun
  change postgres.run (Prog.bind _ _) s = _ at hrun
  rw [Database.run_bind] at hrun
  cases hmat : postgres.run (materialiseReservations ed req.poolKey pool [p.net]) s with
  | error e =>
    rw [hmat] at hrun
    exact absurd (Except.error.inj hrun) ((materialiseReservations_unexhausted ed req.poolKey [p.net] pool).run hmat)
  | ok r =>
    obtain ⟨_, s₁⟩ := r
    rw [hmat] at hrun
    change postgres.run (Prog.bind _ _) s₁ = _ at hrun
    rw [Database.run_bind] at hrun
    have hsteps := Database.After.locked (materialiseReservations_locked (frozen_alone (.object req.poolKey) req.poolKey)
      hs.1.based ⟨pool, hpool, fun _ => rfl⟩) _ s₁ hmat
    have hs₁ : Floored req.poolKey p (s₁.poolState req.poolKey) :=
      (floored_kept ed req.poolKey hm).steps _ _ hs hsteps.1 hsteps.2.2
    cases hfind : postgres.run (findBlock req.poolKey (searchDigest ed req.scopeDigest) [p.net] req.prefixLen
        pool.strategy) s₁ with
    | ok r =>
      rw [hfind] at hrun
      exact absurd rfl ((recordBlock_unexhausted req.poolKey [p.net] pool r.1 (req.row ed)).run hrun)
    | error e =>
      rw [hfind] at hrun
      obtain rfl := Except.error.inj hrun
      rintro ⟨b, hroom⟩
      refine findBlock_noFreeBlock hm hs₁ hd hfind ⟨b, hroom.free.within, hroom.free.len, ?_⟩
      intro r hr hk hblocks
      cases materialiseReservations_fresh hstored _ s₁ hmat r hr with
      | inl hold => exact hroom.free.apart r hold hk hblocks
      | inr hnew =>
        obtain ⟨hheld, blocks, hreserved, block, hblock, hc⟩ := hnew
        exact hroom.unreserved hheld blocks hreserved block hblock r.cidr hc

end

end Ipam.Allocator
