import Ipam.Allocator.FindBlockSpec

namespace Ipam.Allocator

open Allocation Database Transaction

section

variable {Others : List Lock → Db → Db → Prop} {guard : Lock} {k : Key} {x : PoolState} {p : Cidr}
  {emptyDigest : String}

theorem seedConsumption_locked (F : PoolFrozen Others guard k) (hx : Based k p x) :
    Locked postgres Others guard (Db.poolState k) x (seedConsumption k [p.net])
      (fun v y => y = x ∧ v = consumption p (PoolState.cidrs x)) (fun _ _ => False) := by
  have hexec : ∀ s : Db, s.poolState k = x → postgres.exec (.loadAllocations k spaceAll) s =
      .ok (PoolState.cidrs x, []) := by
    rintro s rfl
    rw [PoolState.cidrs, ← blocksIn_spaceAll]
    rfl
  apply Locked.read F hexec
  have hmeasure := @measure_net p _ hx.settled 0
  rw [hmeasure]
  exact Locked.pure ⟨rfl, rfl⟩

theorem loadOverlapping_locked (F : PoolFrozen Others guard k) {block : IPNet} {b : Cidr}
    (hb : block.string = some b) :
    Locked postgres Others guard (Db.poolState k) x (loadOverlapping k block)
      (fun cs y => y = x ∧ cs = (PoolState.cidrs x).filter fun c => c.overlaps b) (fun _ _ => False) := by
  have hexec : ∀ s : Db, s.poolState k = x → postgres.exec (.loadOverlapping k b) s =
      .ok ((PoolState.cidrs x).filter fun c => c.overlaps b, []) := by
    rintro s rfl
    rfl
  simp only [loadOverlapping, hb]
  exact Locked.read F hexec (Locked.pure ⟨rfl, rfl⟩)

theorem readConsumed_locked (F : PoolFrozen Others guard k) :
    Locked postgres Others guard (Db.poolState k) x (readConsumed k)
      (fun v y => y = x ∧ v = x.consumed) (fun _ _ => False) := by
  have hexec : ∀ s : Db, s.poolState k = x → postgres.exec (.readConsumed k) s = .ok (x.consumed, []) := by
    rintro s rfl
    rfl
  exact Locked.read F hexec (Locked.pure ⟨rfl, rfl⟩)

theorem consumedOrSeed_locked (F : PoolFrozen Others guard k) (hx : Based k p x) :
    Locked postgres Others guard (Db.poolState k) x (consumedOrSeed k [p.net])
      (fun v y => y = x ∧ v = PoolState.total x p) (fun _ _ => False) := by
  apply Locked.bind
  apply (readConsumed_locked F).mono _ (fun _ _ h => h)
  rintro recorded y ⟨rfl, rfl⟩
  simp only [PoolState.total]
  cases y.consumed with
  | none => exact seedConsumption_locked F hx
  | some base => exact Locked.pure ⟨rfl, rfl⟩

theorem overlapping_settled (hx : Based k p x) (b : Cidr) :
    ∀ c ∈ (PoolState.cidrs x).filter (fun c => c.overlaps b), Settled p c :=
  fun c hc => hx.settled c (List.mem_filter.mp hc).1

theorem consumptionAfterAllocate_locked (F : PoolFrozen Others guard k) (hx : Based k p x)
    {n start : ℕ} (hblock : BlockAt p n start) {b : Cidr}
    (hb : (makeCIDR start n p.family hblock.le_bits).string = some b) :
    Locked postgres Others guard (Db.poolState k) x
      (consumptionAfterAllocate k [p.net] (makeCIDR start n p.family hblock.le_bits))
      (fun v y => y = x ∧ v = PoolState.total x p + newly p (PoolState.cidrs x) b) (fun _ _ => False) := by
  apply Locked.bind
  apply (loadOverlapping_locked F hb).mono _ (fun _ _ h => h)
  rintro cs y ⟨rfl, rfl⟩
  apply Locked.bind
  apply (consumedOrSeed_locked F hx).mono _ (fun _ _ h => h)
  rintro base z ⟨rfl, rfl⟩
  have hdelta := consumptionDelta_net (overlapping_settled hx b)
    (Cidr.CutFrom.settled ⟨n, start, hblock, hb⟩) (filterWithin_makeCIDR hblock hb)
  rw [addedConsumption, hdelta, newly_overlapping]
  exact Locked.pure ⟨rfl, rfl⟩

theorem reserveBlocks_locked (F : PoolFrozen Others guard k) {bs : List IPNet}
    (hbs : ∀ b ∈ bs, ∃ n start, ∃ h : BlockAt p n start, b = makeCIDR start n p.family h.le_bits)
    (hx : Based k p x) {consumed : Option ℕ} (hc : ∀ v, consumed = some v → x.consumed = some v) :
    Locked postgres Others guard (Db.poolState k) x (reserveBlocks emptyDigest k [p.net] bs consumed)
      (fun c y => PoolSteps emptyDigest k p x y ∧ y.pool = x.pool ∧ (c = none → consumed = none ∧ y = x) ∧
        ∀ v, c = some v → y.consumed = some v) (fun _ _ => True) := by
  induction bs generalizing x consumed with
  | nil => exact Locked.pure ⟨.refl, rfl, fun h => ⟨h, rfl⟩, hc⟩
  | cons block bs ih =>
    obtain ⟨n, start, hblock, rfl⟩ := hbs block List.mem_cons_self
    obtain ⟨b, hb, -⟩ := exists_string_makeCIDR hblock
    have hcut : b.CutFrom p := ⟨n, start, hblock, hb⟩
    have hbs' := fun c hc => hbs c (List.mem_cons_of_mem _ hc)
    apply Locked.bind
    apply (consumptionAfterAllocate_locked F hx hblock hb).mono _ (fun _ _ _ => trivial)
    rintro next y ⟨rfl, rfl⟩
    have hinsert : insertReservation emptyDigest k (makeCIDR start n p.family hblock.le_bits) =
        send (.insertReservation (reservationRow emptyDigest k b)) := by
      simp only [insertReservation, hb]
      rfl
    rw [hinsert]
    apply locked_insertReservation F rfl (fun _ _ => trivial)
    · exact ih hbs' hx hc
    · intro hadm hapart
      have hstep := PoolStep.reserve hcut hadm hapart
      apply locked_writeConsumed F _ (fun _ => trivial)
      apply (ih hbs' (hx.step hstep) fun v hv => hv).mono
      · rintro c z ⟨hsteps, hpool, hnone, hsome⟩
        refine ⟨.head hstep hsteps, hpool, ?_, hsome⟩
        intro h
        cases (hnone h).1
      · exact fun _ _ h => h

def Reads (p : Cidr) (pool : IPPool) (x : PoolState) : Prop :=
  ∃ current, x.pool = some current ∧
    ∀ v, setPoolCapacityStatus current [p.net] v = setPoolCapacityStatus pool [p.net] v

theorem persistPoolCapacity_locked (emptyDigest : String) (F : PoolFrozen Others guard k) {pool : IPPool}
    (hpool : Reads p pool x) {v : ℕ} (hv : x.consumed = some v) :
    Locked postgres Others guard (Db.poolState k) x (persistPoolCapacity k pool [p.net] v)
      (fun _ y => PoolStep emptyDigest k p x y ∧ Reads p pool y ∧ Published p y) (fun _ _ => False) := by
  obtain ⟨current, hcurrent, hsame⟩ := hpool
  have hupdate : Locked postgres Others guard (Db.poolState k) x
      (Prog.call (.updateObject k (.pool (setPoolCapacityStatus pool [p.net] v))) >>= Prog.pure)
      (fun _ y => PoolStep emptyDigest k p x y ∧ Reads p pool y ∧ Published p y) (fun _ _ => False) := by
    apply locked_updatePool F _ (fun h => by simp [h] at hcurrent)
    refine Locked.pure ⟨?_, ⟨_, rfl, fun w => setPoolCapacityStatus_twice pool _ v w⟩, ?_⟩
    · rw [← hsame v]
      exact .publish hcurrent v
    · intro w hw
      obtain rfl : v = w := Option.some.inj (hv.symm.trans hw)
      refine ⟨_, rfl, ?_⟩
      simp only [setPoolCapacityStatus, totalAddresses_net]
  exact hupdate

theorem materialiseReservations_locked (F : PoolFrozen Others guard k) {pool : IPPool}
    (hx : Based k p x) (hpool : Reads p pool x) :
    Locked postgres Others guard (Db.poolState k) x (materialiseReservations emptyDigest k pool [p.net])
      (fun _ y => PoolSteps emptyDigest k p x y ∧ Reads p pool y ∧ (Published p x → Published p y))
      (fun _ _ => True) := by
  simp only [materialiseReservations]
  split
  · exact Locked.pure ⟨.refl, hpool, id⟩
  have hexec : ∀ s : Db, s.poolState k = x → postgres.exec (.holdsReservations k) s =
      .ok (x.rows.any fun r => r.purpose = .reservation, []) := by
    rintro s rfl
    rfl
  apply Locked.read F hexec
  split
  · exact Locked.pure ⟨.refl, hpool, id⟩
  cases hblocks : (reservationFrom pool.reservations).blocksIn [p.net] with
  | error e => exact Locked.throw trivial
  | ok bs =>
    apply Locked.bind
    apply Locked.pure
    apply Locked.bind
    apply (reserveBlocks_locked F (reservedBlocks_blockAt hblocks) hx (fun v hv => by cases hv)).mono _
      (fun _ _ h => h)
    rintro consumed y ⟨hsteps, hkeep, hnone, hsome⟩
    have hpool' : Reads p pool y := by
      obtain ⟨current, hcurrent, hsame⟩ := hpool
      exact ⟨current, hkeep.trans hcurrent, hsame⟩
    cases consumed with
    | none =>
      obtain ⟨-, rfl⟩ := hnone rfl
      exact Locked.pure ⟨.refl, hpool, id⟩
    | some v =>
      apply (persistPoolCapacity_locked emptyDigest F hpool' (hsome v rfl)).mono _ (fun _ _ h => h.elim)
      rintro _ z ⟨hstep, hreads, hpub⟩
      exact ⟨hsteps.tail hstep, hreads, fun _ => hpub⟩

structure Records (k : Key) (digest : String) (row : Cidr → Row) : Prop where
  poolKey : ∀ b, (row b).poolKey = k
  cidr : ∀ b, (row b).cidr = b
  purpose : ∀ b, (row b).purpose ≠ .reservation
  searchedUnder : ∀ b, Row.searchedUnder (row b) = digest

theorem PrefixRequest.records (req : PrefixRequest) :
    Records req.poolKey (searchDigest emptyDigest req.scopeDigest) (req.row emptyDigest) :=
  ⟨fun _ => rfl, fun _ => rfl, fun _ => by simp [PrefixRequest.row],
    fun _ => by simp [PrefixRequest.row, Row.searchedUnder]⟩

theorem PoolCarve.records (carve : PoolCarve) : Records k spaceAll (carve.row k) :=
  ⟨fun _ => rfl, fun _ => rfl, fun _ => by simp [PoolCarve.row],
    fun _ => by simp [PoolCarve.row, Row.searchedUnder]⟩

theorem recordBlock_locked (F : PoolFrozen Others guard k) {pool : IPPool} {block : IPNet}
    {row : Cidr → Row} {digest : String} {n : ℤ} (hx : Based k p x) (hpool : Reads p pool x)
    (hfound : BlockFound p (blocksIn digest x.rows) n block)
    (hrow : Records k digest row) :
    Locked postgres Others guard (Db.poolState k) x (recordBlock pool [p.net] block row k)
      (fun b y => block.string = some b ∧ PoolSteps emptyDigest k p x y ∧ Published p y)
      (fun e _ => ∃ b, block.string = some b ∧ Refused x (row b) e) := by
  have hfound' := hfound
  obtain ⟨start, hblock, rfl, -⟩ := hfound'
  obtain ⟨b, hb, -⟩ := exists_string_makeCIDR hblock
  have hkey := hrow.poolKey b
  have hcidr := hrow.cidr b
  have hprog : recordBlock pool [p.net] (makeCIDR start n.toNat p.family hblock.le_bits) row k =
      (consumptionAfterAllocate k [p.net] (makeCIDR start n.toNat p.family hblock.le_bits) >>= fun consumed =>
        send (.insertAllocation (row b)) >>= fun _ => writeConsumed k consumed >>= fun _ =>
        persistPoolCapacity k pool [p.net] consumed >>= fun _ => pure b) := by
    simp only [recordBlock, hb]
    rfl
  rw [hprog]
  apply Locked.bind
  apply (consumptionAfterAllocate_locked F hx hblock hb).mono _ (fun _ _ h => h.elim)
  rintro consumed y ⟨rfl, rfl⟩
  apply locked_insertAllocation F hkey (fun e he => ⟨b, hb, he⟩)
  intro hadm
  have hstep : PoolStep emptyDigest k p y (PoolState.record y p (row b)) := by
    refine .allocate hkey (hrow.purpose b) (by rw [hcidr]; exact hfound.cutFrom hb) hadm ?_
    intro hm o ho hblocks
    rw [hcidr]
    apply hfound.apart hb hm
    rw [hrow.searchedUnder b] at hblocks
    exact List.mem_map_of_mem (List.mem_filter.mpr ⟨ho, hblocks⟩)
  have hrecord : PoolState.record y p (row b) =
      { y.addRow (row b) with consumed := some (PoolState.total y p + newly p (PoolState.cidrs y) b) } := by
    simp only [PoolState.record, hcidr]
  rw [hrecord] at hstep
  have hsome : (y.addRow (row b)).pool ≠ none := by
    obtain ⟨current, hcurrent, -⟩ := hpool
    simp [PoolState.addRow, hcurrent]
  apply locked_writeConsumed F _ (fun h => absurd h hsome)
  apply Locked.bind
  have hreads : Reads p pool
      { y.addRow (row b) with consumed := some (PoolState.total y p + newly p (PoolState.cidrs y) b) } := hpool
  apply (persistPoolCapacity_locked emptyDigest F hreads rfl).mono _ (fun _ _ h => h.elim)
  rintro _ z ⟨hpublish, -, hpub⟩
  exact Locked.pure ⟨hb, .tail (.single hstep) hpublish, hpub⟩

def afterLock {α : Type} (f : IPPool → List IPNet → Tx α) (o : Option Object) : Tx α := do
  let pool ← Prog.ofOption .poolNotFound (asPool o)
  let parents ← parsePoolCIDR pool
  f pool parents

def withPool {α : Type} (k : Key) (f : IPPool → List IPNet → Tx α) : Tx α :=
  .step (.lockObject k) (afterLock f)

def takeBlock (emptyDigest : String) (k : Key) (digest : String) (n : ℤ) (row : Cidr → Row) (pool : IPPool)
    (parents : List IPNet) : Tx Cidr := do
  materialiseReservations emptyDigest k pool parents
  let block ← findBlock k digest parents n pool.strategy
  recordBlock pool parents block row k

theorem allocatePrefix_eq (emptyDigest : String) (req : PrefixRequest) :
    allocatePrefix emptyDigest req = withPool req.poolKey (takeBlock emptyDigest req.poolKey
      (searchDigest emptyDigest req.scopeDigest) req.prefixLen (req.row emptyDigest)) := rfl

def takeRange (emptyDigest : String) (k : Key) (digest : String) (n : ℤ) (row : Cidr → Row) (pool : IPPool)
    (parents : List IPNet) : Tx IPNet := do
  materialiseReservations emptyDigest k pool parents
  let block ← findBlock k digest parents n pool.strategy
  let _ ← recordBlock pool parents block row k
  pure block

theorem carveFromPool_eq (emptyDigest : String) (k : Key) (n : ℤ) (carve : PoolCarve) :
    carveFromPool emptyDigest k n carve = withPool k (takeRange emptyDigest k spaceAll n (carve.row k)) := rfl

theorem bind_bind {α β γ : Type} (q : Tx α) (f : α → Tx β) (g : β → Tx γ) :
    (q >>= f).bind g = q >>= fun a => (f a).bind g :=
  Prog.bind_assoc q f g

theorem takeRange_void (emptyDigest : String) (k : Key) (digest : String) (n : ℤ) (row : Cidr → Row)
    (pool : IPPool) (parents : List IPNet) :
    (takeRange emptyDigest k digest n row pool parents).void =
      (takeBlock emptyDigest k digest n row pool parents).void := by
  simp only [takeRange, takeBlock, Prog.void, bind_bind]
  rfl

theorem withPool_void {α : Type} (k : Key) (f : IPPool → List IPNet → Tx α) :
    (withPool k f).void = withPool k fun pool parents => (f pool parents).void := by
  simp only [withPool, Prog.void, Prog.bind]
  congr 1
  funext o
  simp only [afterLock, bind_bind]

theorem carveFromPool_void (emptyDigest : String) (k : Key) (n : ℤ) (carve : PoolCarve) :
    (carveFromPool emptyDigest k n carve).void =
      (withPool k (takeBlock emptyDigest k spaceAll n (carve.row k))).void := by
  simp only [carveFromPool_eq, withPool_void, takeRange_void]

theorem reservePool_eq (emptyDigest : String) (k : Key) :
    reservePool emptyDigest k = withPool k (materialiseReservations emptyDigest k) := rfl

theorem parsePoolCIDR_eq {pool : IPPool} (h : pool.allocatedCIDR = some p) :
    parsePoolCIDR pool = .pure [p.net] := by
  simp only [parsePoolCIDR, IPPool.range, h]
  rfl

theorem afterLock_eq {α : Type} {f : IPPool → List IPNet → Tx α} {o : Option Object} {pool : IPPool}
    (ho : o.bind Object.asPool = some pool) (hcidr : pool.allocatedCIDR = some p) : afterLock f o = f pool [p.net] := by
  have hdecode : asPool o = some pool := by
    cases o with
    | none => cases ho
    | some o => exact ho
  have hprog : afterLock f o = parsePoolCIDR pool >>= f pool := by
    simp only [afterLock, hdecode]
    rfl
  rw [hprog, parsePoolCIDR_eq hcidr]
  rfl

theorem withPool_run {α : Type} {f : IPPool → List IPNet → Tx α} {s : Db} {pool : IPPool} (hpool : s.pool k = some pool)
    (hcidr : pool.allocatedCIDR = some p) : postgres.run (withPool k f) s = postgres.run (f pool [p.net]) s := by
  have hrun : postgres.run (withPool k f) s = postgres.run (afterLock f (s.object k)) s := rfl
  rw [hrun, afterLock_eq ((pool_eq_asPool s k).symm.trans hpool) hcidr]

theorem afterLock_locked {α : Type} {f : IPPool → List IPNet → Tx α} {Q : α → PoolState → Prop}
    {X : Err → PoolState → Prop} (hx : Based k p x)
    (h : ∀ pool, x.pool = some pool → Locked postgres Others guard (Db.poolState k) x (f pool [p.net]) Q X)
    {o : Option Object} (ho : o.bind Object.asPool = x.pool) :
    Locked postgres Others guard (Db.poolState k) x (afterLock f o) Q X := by
  obtain ⟨pool, hpool, hcidr⟩ := hx.pool
  rw [afterLock_eq (ho.trans hpool) hcidr]
  exact h pool hpool

theorem takeBlock_locked (F : PoolFrozen Others guard k) {pool : IPPool} {row : Cidr → Row}
    {digest : String} {n : ℤ} (hx : Based k p x) (hpool : x.pool = some pool)
    (hrow : Records k digest row) :
    Locked postgres Others guard (Db.poolState k) x (takeBlock emptyDigest k digest n row pool [p.net])
      (fun _ y => PoolSteps emptyDigest k p x y ∧ Published p y) (fun _ _ => True) := by
  have hreads : Reads p pool x := ⟨pool, hpool, fun _ => rfl⟩
  apply Locked.bind
  apply (materialiseReservations_locked F hx hreads).mono _ (fun _ _ h => h)
  rintro _ y ⟨hreserve, hready, -⟩
  have hy : Based k p y := hreserve.preserves (fun _ _ h hs => h.step hs) hx
  apply Locked.bind
  apply (findBlock_locked emptyDigest F hy _).mono _ (fun _ _ h => h)
  rintro block z ⟨hfloors, hfound⟩
  have hz : Based k p z := hfloors.steps.preserves (fun _ _ h hs => h.step hs) hy
  have hreadz : Reads p pool z := by
    obtain ⟨current, hcurrent, hsame⟩ := hready
    exact ⟨current, hfloors.pool.trans hcurrent, hsame⟩
  rw [← hfloors.rows] at hfound
  apply (recordBlock_locked F hz hreadz hfound hrow).mono
  · rintro b w ⟨-, hrecord, hpub⟩
    exact ⟨(hreserve.trans hfloors.steps).trans hrecord, hpub⟩
  · exact fun _ _ _ => trivial

end

end Ipam.Allocator
