import Ipam.Allocator.FloorTrigger
import Ipam.Allocator.SearchRefinement

namespace Ipam.Allocator

open Allocation Database Transaction FirstFit

inductive HistoryStep (emptyDigest : String) (k : Key) : Db → Db → Prop where
  | txn {s s' : Db} {prog : Tx Unit} (hprog : PoolTxn emptyDigest prog) (hrun : postgres.run prog s = .ok ((), s')) :
      HistoryStep emptyDigest k s s'
  | setStrategy {s : Db} {pool : IPPool} (hpool : s.pool k = some pool) (strategy : Strategy) :
      HistoryStep emptyDigest k s (Effect.apply (.putObject k (.pool { pool with strategy := strategy })) s)

abbrev History (emptyDigest : String) (k : Key) : Db → Db → Prop :=
  Relation.ReflTransGen (HistoryStep emptyDigest k)

theorem Kept.run {strict : Bool} {emptyDigest : String} {k : Key} {p : Cidr} {J : PoolState → Prop}
    {L : List Row → PoolState → PoolState → Prop} (h : Kept strict emptyDigest k p J L) {prog : Tx Unit}
    (hprog : PoolTxn emptyDigest prog) {s s' : Db} (hs : J (s.poolState k))
    (hrun : postgres.run prog s = .ok ((), s')) : J (s'.poolState k) := by
  have hcommit := Database.wp_run (h.safe hprog hs) fun held => Discipline.Others.refl _ hs
  rw [postgres.view_nil, hrun] at hcommit
  obtain ⟨log, held, rfl, hcommit⟩ := hcommit
  exact (hcommit s (Discipline.Others.refl _ hs)).1

section

variable {emptyDigest : String} {k : Key} {p : Cidr} {x : PoolState}

theorem Floored.setStrategy (h : Floored k p x) {pool : IPPool} (hpool : x.pool = some pool) (strategy : Strategy) :
    Floored k p { x with pool := some { pool with strategy := strategy } } := by
  obtain ⟨hcounted, hfloors⟩ := h
  obtain ⟨current, hcurrent, hcidr⟩ := hcounted.based.pool
  obtain rfl := Option.some.inj (hpool.symm.trans hcurrent)
  exact ⟨⟨⟨⟨_, rfl, hcidr⟩, hcounted.based.rows⟩, hcounted.keys, hcounted.apart, hcounted.recorded, hcounted.total⟩,
    hfloors.named, hfloors.plain, hfloors.below⟩

theorem HistoryStep.floored (hm : ¬ p.MeetsMapped) {s s' : Db} (h : HistoryStep emptyDigest k s s')
    (hs : Floored k p (s.poolState k)) : Floored k p (s'.poolState k) := by
  cases h with
  | txn hprog hrun => exact (floored_kept emptyDigest k hm).run hprog hs hrun
  | setStrategy hpool strategy =>
    rw [poolState_apply]
    have happly := hs.setStrategy hpool strategy
    simp only [PoolState.apply, if_true]
    exact happly

theorem History.floored (hm : ¬ p.MeetsMapped) {s s' : Db} (h : History emptyDigest k s s')
    (hs : Floored k p (s.poolState k)) : Floored k p (s'.poolState k) := by
  induction h with
  | refl => exact hs
  | tail _ hlast ih => exact hlast.floored hm ih

variable {Others : List Lock → Db → Db → Prop} {guard : Lock} {digest : String} {n : ℤ}

theorem findBlock_firstFit (F : PoolFrozen Others guard k) (hm : ¬ p.MeetsMapped)
    (hend : p.last + 1 < 2 ^ p.family.bits) (hedge : ¬ EndsBelowMapped p) (hx : Floored k p x)
    {strategy : Strategy} (hstrategy : strategy = .unset ∨ strategy = .firstFit) (hd : digest ≠ spaceAll) :
    Locked postgres Others guard (Db.poolState k) x (findBlock k digest [p.net] n strategy)
      (fun block y => FloorsOnly emptyDigest k p x y ∧ ∃ h : Valid p n, ∃ start,
        Answer (Free p (blocksIn digest x.rows)) (wantedSize p n) (some start) ∧
          block = makeCIDR start n.toNat p.family h.toNat_le)
      (fun e _ => e = .searchDidNotAdvance ∨ (e = .allocation .poolExhausted ∧
        (Valid p n → Answer (Free p (blocksIn digest x.rows)) (wantedSize p n) none))) := by
  have hbased := hx.1.based
  have hfirst : ¬ (strategy ≠ .unset ∧ strategy ≠ .firstFit) := by
    rcases hstrategy with rfl | rfl <;> simp
  simp only [findBlock, if_neg hfirst, if_neg hd]
  apply Locked.bind
  apply (lockSearchFloor_locked emptyDigest F hbased.pool_ne_none hd).mono _ (fun _ _ h => h.elim)
  rintro observed y ⟨hfloors, floor, rfl, hfloor⟩
  have hsound : FloorsSound p y := hfloors.steps.preserves (fun _ _ h hs => h.step hm hs) hx.2
  have hin : ∀ c ∈ blocksIn digest y.rows, c.within p = true := by
    rw [hfloors.rows]
    exact blocksIn_within hbased hm
  have hbelow := hsound.below digest floor hfloor
  apply Locked.bind
  apply (boundedFirstFit_total F rfl hin (by decide) hend (some floor)
    (stopsUnmapped_of_not_meets hm hedge hin) _).mono
  · rintro r z ⟨rfl, hfound⟩
    apply Locked.bind
    apply (raiseSearchFloor_locked emptyDigest F hd hfloor hfound.nextFloor).mono _ (fun _ _ h => h.elim)
    rintro _ w hraise
    rw [hbelow.freeFrom_eq, hfloors.rows] at hfound
    refine Locked.pure ⟨⟨hfloors.steps.trans hraise.steps, hraise.rows.trans hfloors.rows,
      hraise.pool.trans hfloors.pool, hraise.consumed.trans hfloors.consumed⟩, hfound.block⟩
  · rintro e z (⟨rfl, -⟩ | ⟨rfl, hnone⟩)
    · exact Or.inl rfl
    · rw [hbelow.freeFrom_eq, hfloors.rows] at hnone
      exact Or.inr ⟨rfl, hnone⟩

end

theorem view_onFloor {k : Key} {es : List Effect} (h : ∀ e ∈ es, Effect.OnFloor k e) (s : Db) :
    (postgres.view es s).rows = s.rows := by
  induction es generalizing s with
  | nil => rfl
  | cons e es ih =>
    have hrest := ih (fun e he => h e (List.mem_cons_of_mem _ he)) (postgres.apply e s)
    obtain ⟨digest, floor, rfl | rfl⟩ := h e List.mem_cons_self
    · exact hrest
    · exact hrest

theorem insertRow_error {s : Db} {r : Row} {e : Err} (h : insertRow s r = .error e) :
    (e = .claimKeyTaken ∧ ∃ o ∈ s.rows, o.claimKey = r.claimKey) ∨
      (e = .allocationKeyTaken ∧ ∃ o ∈ s.rows, o.allocationKey = r.allocationKey) ∨
      (e = .rangesOverlap ∧ ∃ o ∈ s.rows, o.poolKey = r.poolKey ∧ o.scopeDigest = r.scopeDigest ∧
        o.cidr.overlaps r.cidr = true) ∨
      (e = .poolMissing ∧ s.pool r.poolKey = none) := by
  simp only [insertRow] at h
  split at h
  · rename_i hclaim
    obtain rfl := Except.error.inj h
    obtain ⟨o, ho, heq⟩ := List.any_eq_true.mp hclaim.2
    exact Or.inl ⟨rfl, o, ho, by simpa using heq⟩
  split at h
  · rename_i hkey
    obtain rfl := Except.error.inj h
    obtain ⟨o, ho, heq⟩ := List.any_eq_true.mp hkey
    exact Or.inr (Or.inl ⟨rfl, o, ho, by simpa using heq⟩)
  split at h
  · rename_i hover
    obtain rfl := Except.error.inj h
    obtain ⟨_, hmem, heq⟩ := List.any_eq_true.mp hover
    obtain ⟨o, hfilter, rfl⟩ := List.mem_map.mp hmem
    obtain ⟨ho, hk⟩ := List.mem_filter.mp hfilter
    obtain ⟨hd, hc⟩ := Bool.and_eq_true_iff.mp heq
    exact Or.inr (Or.inr (Or.inl ⟨rfl, o, ho, of_decide_eq_true hk, of_decide_eq_true hd, hc⟩))
  split at h
  · rename_i hnone
    obtain rfl := Except.error.inj h
    exact Or.inr (Or.inr (Or.inr ⟨rfl, pool_none_of_object (Option.isNone_iff_eq_none.mp hnone)⟩))
  · cases h

section

variable {k : Key} {p : Cidr} {emptyDigest : String}

theorem Locked.run_ok {α : Type} {prog : Tx α} {s : Db} {Q : α → PoolState → Prop}
    (h : Locked postgres Alone (.object k) (Db.poolState k) (s.poolState k) prog Q (fun _ _ => False)) :
    ∃ a s', postgres.run prog s = .ok (a, s') ∧ Q a (s'.poolState k) := by
  have hrun := h.run
  cases hr : postgres.run prog s with
  | error e =>
    rw [hr] at hrun
    obtain ⟨_, hfalse⟩ := hrun
    exact hfalse.elim
  | ok r =>
    rw [hr] at hrun
    exact ⟨r.1, r.2, rfl, hrun⟩

theorem publish_run (pool : IPPool) (parents : List IPNet) (v : ℕ) (b : Cidr) {s : Db}
    (h : (s.poolState k).pool ≠ none) :
    ∃ s', postgres.run (writeConsumed k v >>= fun _ => persistPoolCapacity k pool parents v >>= fun _ => pure b) s =
      .ok (b, s') := by
  have hlocked : Locked postgres Alone (.object k) (Db.poolState k) (s.poolState k)
      (writeConsumed k v >>= fun _ => persistPoolCapacity k pool parents v >>= fun _ => pure b)
      (fun r _ => r = b) (fun _ _ => False) := by
    apply locked_writeConsumed (frozen_alone (.object k) k)
    · exact fun hnone => h hnone
    apply locked_updatePool (frozen_alone (.object k) k)
    · exact fun hnone => h hnone
    exact Locked.pure rfl
  obtain ⟨a, s', hrun, rfl⟩ := Locked.run_ok hlocked
  exact ⟨s', hrun⟩

theorem recordBlock_run {pool : IPPool} {row : Cidr → Row} {n start : ℕ} (hblock : BlockAt p n start) {b : Cidr}
    (hb : (makeCIDR start n p.family hblock.le_bits).string = some b) (hk : (row b).poolKey = k) {s : Db}
    (hs : Based k p (s.poolState k)) :
    (∃ e, insertRow s (row b) = .error e ∧
      postgres.run (recordBlock pool [p.net] (makeCIDR start n p.family hblock.le_bits) row k) s = .error e) ∨
    ∃ s', postgres.run (recordBlock pool [p.net] (makeCIDR start n p.family hblock.le_bits) row k) s = .ok (b, s') := by
  have hprog : recordBlock pool [p.net] (makeCIDR start n p.family hblock.le_bits) row k =
      (consumptionAfterAllocate k [p.net] (makeCIDR start n p.family hblock.le_bits)).bind fun consumed =>
        .step (.insertAllocation (row b)) fun _ => writeConsumed k consumed >>= fun _ =>
        persistPoolCapacity k pool [p.net] consumed >>= fun _ => pure b := by
    simp only [recordBlock, hb]
    rfl
  obtain ⟨v, s', hcount, -⟩ := Locked.run_ok (consumptionAfterAllocate_locked (frozen_alone (.object k) k) hs hblock hb)
  obtain ⟨es, rfl, hes⟩ := (@consumptionAfterAllocate_emits (fun _ => False) k _ _).run hcount
  obtain rfl : es = [] := List.eq_nil_iff_forall_not_mem.mpr hes
  rw [hprog, Database.run_bind, hcount]
  have hexec : postgres.exec (.insertAllocation (row b)) s = (insertRow s (row b)).map fun es => ((), es) := rfl
  simp only [Except.bind, Database.run, Database.view_nil, hexec]
  rcases insertRow_cases hk with ⟨e, he, -⟩ | ⟨hins, -⟩
  · left
    exact ⟨e, he, by rw [he]; rfl⟩
  · right
    have hpool : ((postgres.view [.insertRow (row b)] s).poolState k).pool ≠ none := by
      rw [poolState_insertRow hk]
      exact hs.pool_ne_none
    obtain ⟨s', hrun⟩ := publish_run pool [p.net] v b hpool
    exact ⟨s', by rw [hins]; exact hrun⟩

variable {d : String} {n : ℤ}

structure FreeBlock (k : Key) (p : Cidr) (rows : List Row) (d : String) (n : ℤ) (b : Cidr) : Prop where
  within : b.within p = true
  len : (b.len : ℤ) = n
  apart : ∀ r ∈ rows, r.poolKey = k → (r.purpose ≠ .claim ∨ r.scopeDigest = d) → r.cidr.overlaps b = false

structure LowestFree (k : Key) (p : Cidr) (rows : List Row) (d : String) (n : ℤ) (b : Cidr) : Prop where
  free : FreeBlock k p rows d n b
  lowest : ∀ b', FreeBlock k p rows d n b' → b.addr ≤ b'.addr

theorem FreeBlock.fits {s : Db} {b : Cidr} (h : FreeBlock k p s.rows d n b) (hd : d ≠ spaceAll) :
    Valid p n ∧ Fits (Free p (blocksIn d (s.poolState k).rows)) (wantedSize p n) b.addr := by
  obtain ⟨hf, haddr, hlast⟩ := (Cidr.within_iff b p).mp h.within
  have hlen : p.len ≤ b.len := by
    have hwithin := h.within
    simp only [Cidr.within, Bool.and_eq_true, decide_eq_true_eq] at hwithin
    exact hwithin.1.2
  have hbits : b.len ≤ p.family.bits := hf ▸ b.len_le
  have hn : n.toNat = b.len := by
    have := h.len
    omega
  have hsize : wantedSize p n = b.size := by
    simp only [wantedSize, hn, Cidr.size, hf]
  refine ⟨?_, hsize ▸ b.size_dvd, ?_⟩
  · have := h.len
    simp only [Valid]
    omega
  · intro x hlo hhi
    have hx : b.Mem b.family x := ⟨rfl, hlo, (b.lt_last_succ x).mpr (hsize ▸ hhi)⟩
    refine ⟨haddr.trans hlo, hx.2.2.trans hlast, ?_⟩
    intro c hc hmem
    obtain ⟨r, hr, hk, hblocks, rfl⟩ := (mem_blocksIn hd).mp hc
    have hapart := h.apart r hr hk hblocks
    rw [← hf] at hmem
    rw [(r.cidr.overlaps_iff_mem b).mpr ⟨b.family, x, hmem, hx⟩] at hapart
    cases hapart

theorem exists_freeBlock {s : Db} {start : ℕ} (hm : ¬ p.MeetsMapped) (hd : d ≠ spaceAll) (hv : Valid p n)
    (h : Fits (Free p (blocksIn d (s.poolState k).rows)) (wantedSize p n) start) :
    ∃ b : Cidr, FreeBlock k p s.rows d n b ∧ b.addr = start ∧
      (makeCIDR start n.toNat p.family hv.toNat_le).string = some b := by
  have hlen : p.len ≤ n.toNat ∧ (n.toNat : ℤ) = n := by
    simp only [Valid] at hv
    omega
  have hblock : BlockAt p n.toNat start := BlockAt.of_fits hlen.1 hv.toNat_le h
  have hfound : BlockFound p (blocksIn d (s.poolState k).rows) n (makeCIDR start n.toNat p.family hv.toNat_le) :=
    ⟨start, hblock, rfl, fun _ => h⟩
  have hmapped : ¬ Mapped p.family start :=
    p.not_mapped_of_not_meets hm (h.isFree start le_rfl (by have := wantedSize_pos p n; omega)).mem
  have hb := string_makeCIDR hblock hmapped
  refine ⟨hblock.cidr hmapped, ⟨hblock.cidr_within hmapped, hlen.2, ?_⟩, rfl, hb⟩
  intro r hr hk hblocks
  exact hfound.apart hb hm r.cidr ((mem_blocksIn hd).mpr ⟨r, hr, hk, hblocks, rfl⟩)

theorem takeBlock_unreserved {pool : IPPool} (hzero : (reservationFrom pool.reservations).isZero = true)
    (digest : String) (n : ℤ) (row : Cidr → Row) (parents : List IPNet) :
    takeBlock emptyDigest k digest n row pool parents =
      (findBlock k digest parents n pool.strategy).bind fun block => recordBlock pool parents block row k := by
  have hnone : materialiseReservations emptyDigest k pool parents = .pure () := if_pos hzero
  unfold takeBlock
  rw [hnone]
  rfl

theorem findBlock_run {s : Db} {d : String} {n : ℤ} {strategy : Strategy} (hm : ¬ p.MeetsMapped)
    (hend : p.last + 1 < 2 ^ p.family.bits) (hedge : ¬ EndsBelowMapped p) (hs : Floored k p (s.poolState k))
    (hstrategy : strategy = .unset ∨ strategy = .firstFit) (hd : d ≠ spaceAll) :
    postgres.run (findBlock k d [p.net] n strategy) s = .error .searchDidNotAdvance ∨
    ((¬ ∃ b, FreeBlock k p s.rows d n b) ∧
      postgres.run (findBlock k d [p.net] n strategy) s = .error (.allocation .poolExhausted)) ∨
    ∃ b start s', ∃ h : BlockAt p n.toNat start, LowestFree k p s.rows d n b ∧
      (makeCIDR start n.toNat p.family h.le_bits).string = some b ∧ s'.rows = s.rows ∧ Based k p (s'.poolState k) ∧
      postgres.run (findBlock k d [p.net] n strategy) s = .ok (makeCIDR start n.toNat p.family h.le_bits, s') := by
  have hsearch := (@findBlock_firstFit "" k p _ _ _ d n (frozen_alone (.object k) k) hm hend hedge hs _ hstrategy hd).run
  cases hrun : postgres.run (findBlock k d [p.net] n strategy) s with
  | error e =>
    rw [hrun] at hsearch
    obtain ⟨_, rfl | ⟨rfl, hnone⟩⟩ := hsearch
    · exact Or.inl rfl
    · refine Or.inr (Or.inl ⟨?_, rfl⟩)
      rintro ⟨b, hb⟩
      obtain ⟨hv, hfits⟩ := hb.fits hd
      exact hnone hv b.addr hfits
  | ok r =>
    obtain ⟨block, s'⟩ := r
    rw [hrun] at hsearch
    obtain ⟨hfloors, hv, start, ⟨hfits, hbelow⟩, rfl⟩ := hsearch
    obtain ⟨b, hfree, haddr, hstring⟩ := exists_freeBlock hm hd hv hfits
    have hblock : BlockAt p n.toNat start := by
      apply BlockAt.of_fits _ hv.toNat_le hfits
      simp only [Valid] at hv
      omega
    obtain ⟨es, rfl, hes⟩ := (findBlock_emits _ _ _ _ _).run hrun
    refine Or.inr (Or.inr ⟨b, start, _, hblock, ⟨hfree, ?_⟩, hstring, view_onFloor hes s, ?_, rfl⟩)
    · intro b' hb'
      rw [haddr]
      exact hbelow b'.addr (hb'.fits hd).2
    · exact hfloors.steps.preserves (fun _ _ h hs => h.step hs) hs.1.based

end

theorem allocatePrefix_history (emptyDigest : String) (hempty : emptyDigest ≠ "") (k : Key) (p : Cidr)
    (hm : ¬ p.MeetsMapped) (hend : p.last + 1 < 2 ^ p.family.bits) (hedge : ¬ EndsBelowMapped p) (init s : Db)
    (hinit : Fresh k p init) (hs : History emptyDigest k init s) (req : PrefixRequest) (hk : req.poolKey = k)
    (pool : IPPool) (hpool : s.pool k = some pool) (hstrategy : pool.strategy = .unset ∨ pool.strategy = .firstFit)
    (hzero : (reservationFrom pool.reservations).isZero = true)
    (hadvance : postgres.run (allocatePrefix emptyDigest req) s ≠ .error .searchDidNotAdvance) :
    (∃ b s', LowestFree k p s.rows (searchDigest emptyDigest req.scopeDigest) req.prefixLen b ∧
      postgres.run (allocatePrefix emptyDigest req) s = .ok (b, s')) ∨
    ((¬ ∃ b, FreeBlock k p s.rows (searchDigest emptyDigest req.scopeDigest) req.prefixLen b) ∧
      postgres.run (allocatePrefix emptyDigest req) s = .error (.allocation .poolExhausted)) ∨
    ((∃ b, FreeBlock k p s.rows (searchDigest emptyDigest req.scopeDigest) req.prefixLen b) ∧
      (∃ o ∈ s.rows, o.claimKey = some req.claimKey ∨ o.allocationKey = req.allocationKey.getD req.claimKey) ∧
      (postgres.run (allocatePrefix emptyDigest req) s = .error .claimKeyTaken ∨
        postgres.run (allocatePrefix emptyDigest req) s = .error .allocationKeyTaken)) := by
  subst hk
  have hd : searchDigest emptyDigest req.scopeDigest ≠ spaceAll := by
    simp only [searchDigest, spaceAll]
    split
    · exact hempty
    · assumption
  have hfloored := hs.floored hm hinit.floored
  have hbased := hfloored.1.based
  obtain ⟨current, hcurrent, hcidr⟩ := hbased.pool
  obtain rfl := Option.some.inj (hpool.symm.trans hcurrent)
  have hrun : postgres.run (allocatePrefix emptyDigest req) s =
      (postgres.run (findBlock req.poolKey (searchDigest emptyDigest req.scopeDigest) [p.net] req.prefixLen
        pool.strategy) s).bind fun r => postgres.run (recordBlock pool [p.net] r.1 (req.row emptyDigest) req.poolKey) r.2 := by
    rw [allocatePrefix_eq, withPool_run hpool hcidr, takeBlock_unreserved hzero, Database.run_bind]
  rcases findBlock_run (n := req.prefixLen) hm hend hedge hfloored hstrategy hd with
    hstuck | ⟨hnone, hexhausted⟩ | ⟨b, start, s', hblock, hlowest, hstring, hrows, hbased', hfound⟩
  · rw [hrun, hstuck] at hadvance
    exact absurd rfl hadvance
  · exact Or.inr (Or.inl ⟨hnone, by rw [hrun, hexhausted]; rfl⟩)
  rw [hfound] at hrun
  obtain ⟨e, href, herror⟩ | ⟨s'', hok⟩ :=
    @recordBlock_run req.poolKey p pool (req.row emptyDigest) _ _ hblock b hstring rfl s' hbased'
  · right
    right
    refine ⟨⟨b, hlowest.free⟩, ?_⟩
    obtain ⟨rfl, o, ho, hkey⟩ | ⟨rfl, o, ho, hkey⟩ | ⟨-, o, ho, hk, hdigest, hover⟩ | ⟨-, hmissing⟩ :=
      insertRow_error href
    · exact ⟨⟨o, hrows ▸ ho, Or.inl hkey⟩, Or.inl (hrun.trans herror)⟩
    · exact ⟨⟨o, hrows ▸ ho, Or.inr hkey⟩, Or.inr (hrun.trans herror)⟩
    · have hapart := hlowest.free.apart o (hrows ▸ ho) hk (Or.inr hdigest)
      cases hapart.symm.trans hover
    · exact absurd hmissing hbased'.pool_ne_none
  · exact Or.inl ⟨b, s'', hlowest, hrun.trans hok⟩

theorem History.exists_of_runAll {emptyDigest : String} {k : Key} {init : Db} {ps : List (Tx Unit)}
    (hps : ∀ p ∈ ps, PoolTxn emptyDigest p) {f : Db → Bool} (h : (postgres.runAll ps init).map f = .ok true) :
    ∃ s, History emptyDigest k init s ∧ f s = true := by
  induction ps generalizing init with
  | nil => exact ⟨init, .refl, Except.ok.inj h⟩
  | cons p ps ih =>
    cases hp : postgres.run p init with
    | error e =>
      simp only [Database.runAll, hp] at h
      cases h
    | ok r =>
      simp only [Database.runAll, hp, Except.bind] at h
      obtain ⟨s, hs, hf⟩ := ih (fun q hq => hps q (List.mem_cons_of_mem _ hq)) h
      exact ⟨s, .head (.txn (hps p List.mem_cons_self) hp) hs, hf⟩

def isOk {α : Type} : Except Err α → Bool
  | .ok _ => true
  | .error _ => false

theorem allocatePrefix_history_office :
    ∃ s b s', History "none" officeKey (poolDb officeKey officePool .firstFit) s ∧
      LowestFree officeKey officePool s.rows "tenant" 28 b ∧
      postgres.run (allocatePrefix "none" (claimOf officeKey "a" "tenant" 28)) s = .ok (b, s') := by
  have hallowed : ∀ p ∈ [carveTxn], PoolTxn "none" p := by
    simp only [List.forall_mem_cons]
    exact ⟨.carveFromPool _ _ _, by simp⟩
  have hexists : ∃ s, History "none" officeKey (poolDb officeKey officePool .firstFit) s ∧
      ((s.pool officeKey).any (fun pool => pool.strategy = .firstFit && (reservationFrom pool.reservations).isZero) &&
        isOk (postgres.run (allocatePrefix "none" (claimOf officeKey "a" "tenant" 28)) s)) = true :=
    History.exists_of_runAll hallowed (by decide +kernel)
  obtain ⟨s, hs, hstate⟩ := hexists
  obtain ⟨hpool, hok⟩ := Bool.and_eq_true_iff.mp hstate
  obtain ⟨pool, hpool, hprops⟩ := Option.any_eq_true _ _ |>.mp hpool
  obtain ⟨hstrategy, hzero⟩ := Bool.and_eq_true_iff.mp hprops
  have hne : ∀ e, postgres.run (allocatePrefix "none" (claimOf officeKey "a" "tenant" 28)) s ≠ .error e := by
    intro e he
    rw [he] at hok
    cases hok
  obtain ⟨b, s', hlowest, hrun⟩ | ⟨-, herror⟩ | ⟨-, -, herror | herror⟩ :=
    allocatePrefix_history "none" (by decide) officeKey officePool (by decide) (by decide) (by decide) _ s
      (poolDb_fresh _ _ _) hs (claimOf officeKey "a" "tenant" 28) rfl pool hpool
      (Or.inr (of_decide_eq_true hstrategy)) hzero (hne _)
  · exact ⟨s, b, s', hs, hlowest, hrun⟩
  · exact absurd herror (hne _)
  · exact absurd herror (hne _)
  · exact absurd herror (hne _)

def belowMapped : Cidr :=
  ⟨.v6, 0xfffe * 2 ^ 32, 96, edgeHalf.len_le, edgeHalf.aligned, edgeHalf.addr_lt, edgeHalf.unmapped⟩

def refusedWith {α : Type} (e : Err) : Except Err α → Bool
  | .ok _ => false
  | .error e' => e' = e

/-- Two claims fill the pool. The third allocation asks for the rows from `::ffff:0:0` on, whose text is `0.0.0.0`,
is given the first row again and reports an error of the scan. -/
theorem allocatePrefix_belowMapped_fails :
    ¬ belowMapped.MeetsMapped ∧ belowMapped.last + 1 < 2 ^ belowMapped.family.bits ∧
    ∃ s, History "none" officeKey (poolDb officeKey belowMapped .firstFit) s ∧
      postgres.run (allocatePrefix "none" (claimOf officeKey "c" "tenant" 97)) s =
        .error (.allocation .scanOutOfOrder) := by
  have hallowed : ∀ p ∈ [(allocatePrefix "none" (claimOf officeKey "a" "tenant" 97)).void,
      (allocatePrefix "none" (claimOf officeKey "b" "tenant" 97)).void], PoolTxn "none" p := by
    simp only [List.forall_mem_cons]
    exact ⟨.allocatePrefix _, .allocatePrefix _, by simp⟩
  have hexists : ∃ s, History "none" officeKey (poolDb officeKey belowMapped .firstFit) s ∧
      refusedWith (.allocation .scanOutOfOrder)
        (postgres.run (allocatePrefix "none" (claimOf officeKey "c" "tenant" 97)) s) = true :=
    History.exists_of_runAll hallowed (by decide +kernel)
  obtain ⟨s, hs, hrefused⟩ := hexists
  refine ⟨by decide, by decide, s, hs, ?_⟩
  cases hrun : postgres.run (allocatePrefix "none" (claimOf officeKey "c" "tenant" 97)) s with
  | ok r =>
    rw [hrun] at hrefused
    cases hrefused
  | error e =>
    rw [hrun] at hrefused
    exact congrArg Except.error (of_decide_eq_true hrefused)

end Ipam.Allocator
