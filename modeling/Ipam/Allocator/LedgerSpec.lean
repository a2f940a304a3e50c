import Ipam.Allocator.Upkeep
import Ipam.Database.Ledger

namespace Ipam.Allocator

open Allocation Database Transaction

structure At (L : Ledger) (k : Key) (pool : IPPool) (p : Cidr) : Prop where
  stored : L.objects k = some (.pool pool)
  range : pool.allocatedCIDR = some p
  rows : ∀ r ∈ L.rows, r.poolKey = k → r.cidr.CutFrom p

theorem At.based {s : Db} {k : Key} {pool : IPPool} {p : Cidr} (h : At s.ledger k pool p) :
    Based k p (s.poolState k) := by
  have hpool : s.ledger.pool k = some pool := by simp [Ledger.pool, h.stored]
  rw [ledger_pool] at hpool
  obtain ⟨current, hcurrent, rfl⟩ := Option.map_eq_some_iff.mp hpool
  refine ⟨⟨current, hcurrent, h.range⟩, ?_⟩
  intro r hr
  obtain ⟨o, ho, rfl⟩ := List.mem_map.mp hr
  obtain ⟨hmem, hkey⟩ := List.mem_filter.mp ho
  exact ⟨(by simpa using hkey : o.poolKey = k), h.rows o hmem (by simpa using hkey)⟩

section

variable {s : Db} {k : Key} {pool : IPPool} {parents : List IPNet} (ed : String)

theorem stored_of_asPool (h : asPool (s.object k) = some pool) :
    s.ledger.objects k = some (.pool pool.core) := by
  cases ho : s.object k with
  | none =>
    rw [ho] at h
    cases h
  | some o =>
    rw [ho] at h
    cases o with
    | pool q =>
      obtain rfl := Option.some.inj h
      simp only [Db.ledger, ho]
      rfl
    | class_ | claim | allocation => cases h

theorem keeps_ledger {α : Type} {good : Effect → Prop} {prog : Tx α} (h : Emits postgres good prog)
    (hgood : ∀ e, good e → ∀ L : Ledger, L.apply e = L) : postgres.After s prog fun _ s' => s'.ledger = s.ledger := by
  apply Database.After.keeps
  apply Keeps.of_emits h
  intro e he s
  exact (ledger_apply e s).trans (hgood e he _)

theorem read_ledger {α : Type} {prog : Tx α} (h : Emits postgres (fun _ => False) prog) :
    postgres.After s prog fun _ s' => s'.ledger = s.ledger :=
  keeps_ledger h fun _ h => h.elim

theorem writeConsumed_after (n : ℕ) : postgres.After s (writeConsumed k n) fun _ s' => s'.ledger = s.ledger := by
  apply Database.After.call
  intro r es hexec
  have h : exec (.writeConsumed k n) s = .ok (r, es) := hexec
  simp only [exec] at h
  split at h
  · cases h
  · cases h
    rfl

theorem findBlock_after (digest : String) (n : ℤ) (strategy : Strategy) :
    postgres.After s (findBlock k digest parents n strategy) fun _ s' => s'.ledger = s.ledger := by
  apply keeps_ledger (findBlock_emits k digest n parents strategy)
  rintro e ⟨d, floor, rfl | rfl⟩ L
  · rfl
  · rfl

theorem persistPoolCapacity_after (h : s.ledger.objects k = some (.pool pool.core)) (n : ℕ) :
    postgres.After s (persistPoolCapacity k pool parents n) fun _ s' => s'.ledger = s.ledger := by
  refine (updateObject_after k _).mono ?_
  rintro _ s' ⟨-, hs'⟩
  rw [hs']
  exact Ledger.put_self h

inductive Reserve (k : Key) (parents : List IPNet) (L : Ledger) : Ledger → Prop where
  | row {b : Cidr} (admits : L.Admits (reservationRow ed k b))
      (apart : ∀ o ∈ L.rows, o.poolKey = k → o.cidr.overlaps b = false)
      (cut : ∀ p : Cidr, parents = [p.net] → b.CutFrom p) :
      Reserve k parents L (L.add (reservationRow ed k b))

abbrev Reserves (k : Key) (parents : List IPNet) : Ledger → Ledger → Prop :=
  Relation.ReflTransGen (Reserve ed k parents)

structure Withheld (k : Key) (parents blocks : List IPNet) (L L' : Ledger) : Prop where
  reserves : Reserves ed k parents L L'
  covered : ∀ block ∈ blocks, ∀ b, block.string = some b → ∃ r ∈ L'.rows, r.poolKey = k ∧ r.cidr.overlaps b = true
  fresh : ∀ r ∈ L'.rows, r ∈ L.rows ∨
    ∃ block ∈ blocks, block.string = some r.cidr ∧ r = reservationRow ed k r.cidr

structure Materialised (k : Key) (parents : List IPNet) (spec : Option Reservation) (L L' : Ledger) : Prop where
  reserves : Reserves ed k parents L L'
  withheld : (reservationFrom spec).isZero = false → (∀ r ∈ L.rows, r.poolKey = k → r.purpose ≠ .reservation) →
    ∃ blocks, (reservationFrom spec).blocksIn parents = .ok blocks ∧ Withheld ed k parents blocks L L'

variable {ed}

theorem Reserve.rows {L L' : Ledger} (h : Reserve ed k parents L L') : ∀ r ∈ L.rows, r ∈ L'.rows := by
  cases h with
  | row _ _ _ => exact fun r hr => List.mem_append_left _ hr

theorem Reserves.rows {L L' : Ledger} (h : Reserves ed k parents L L') : ∀ r ∈ L.rows, r ∈ L'.rows := by
  induction h with
  | refl => exact fun _ hr => hr
  | tail _ hlast ih => exact fun r hr => hlast.rows r (ih r hr)

theorem Reserves.mem {L L' : Ledger} {r : Row} (h : Reserves ed k parents L L') (hr : r ∈ L'.rows) :
    r ∈ L.rows ∨ r = reservationRow ed k r.cidr := by
  induction h with
  | refl => exact .inl hr
  | tail _ hlast ih =>
    cases hlast with
    | row _ _ _ =>
      cases List.mem_append.mp hr with
      | inl hr => exact ih hr
      | inr hr =>
        rw [List.mem_singleton.mp hr]
        exact .inr rfl

theorem Reserves.rows_of_ne {L L' : Ledger} {r : Row} (h : Reserves ed k parents L L') (hk : r.poolKey ≠ k)
    (hr : r ∈ L'.rows) : r ∈ L.rows := by
  refine (h.mem hr).resolve_right ?_
  intro heq
  rw [heq] at hk
  exact hk rfl

theorem Reserves.objects {L L' : Ledger} (h : Reserves ed k parents L L') :
    L'.objects = L.objects ∧ L'.identities = L.identities := by
  induction h with
  | refl => exact ⟨rfl, rfl⟩
  | tail _ hlast ih =>
    cases hlast with
    | row _ _ _ => exact ih

theorem Reserves.at {L L' : Ledger} {p : Cidr} (h : Reserves ed k [p.net] L L') (hL : At L k pool p) :
    At L' k pool p := by
  induction h with
  | refl => exact hL
  | tail _ hlast ih =>
    cases hlast with
    | row _ _ hcut =>
      refine ⟨ih.stored, ih.range, ?_⟩
      intro r hr hk
      rcases List.mem_append.mp hr with hr | hr
      · exact ih.rows r hr hk
      · rw [List.mem_singleton.mp hr]
        exact hcut p rfl

theorem insertReservation_withheld {block : IPNet}
    (hcut : ∀ p : Cidr, parents = [p.net] → ∀ b, block.string = some b → b.CutFrom p) :
    postgres.After s (insertReservation ed k block) fun _ s' => Withheld ed k parents [block] s.ledger s'.ledger := by
  apply Database.After.bind
  apply Database.After.ofOption
  intro b hb
  refine (insertReservation_after (reservationRow ed k b)).mono ?_
  intro inserted s' h
  cases inserted with
  | false =>
    obtain ⟨⟨o, ho, hk, hover⟩, rfl⟩ := h
    refine ⟨.refl, ?_, fun r hr => Or.inl hr⟩
    simp only [List.mem_singleton, forall_eq, hb, Option.some.injEq]
    rintro _ rfl
    exact ⟨o, ho, hk, hover⟩
  | true =>
    obtain ⟨hadm, hapart, hs'⟩ := h
    rw [hs']
    refine ⟨.single (.row hadm hapart fun p hp => hcut p hp b hb), ?_, ?_⟩
    · simp only [List.mem_singleton, forall_eq, hb, Option.some.injEq]
      rintro _ rfl
      refine ⟨_, List.mem_append_right _ (List.mem_singleton_self _), rfl, ?_⟩
      exact (b.overlaps_iff b).mpr ⟨rfl, b.addr_le_last, b.addr_le_last⟩
    · intro r hr
      rcases List.mem_append.mp hr with hr | hr
      · exact Or.inl hr
      · rw [List.mem_singleton.mp hr]
        exact Or.inr ⟨block, List.mem_singleton_self _, hb, rfl⟩

theorem Withheld.append {bs cs : List IPNet} {L L' L'' : Ledger} (h : Withheld ed k parents bs L L')
    (h' : Withheld ed k parents cs L' L'') : Withheld ed k parents (bs ++ cs) L L'' := by
  refine ⟨h.reserves.trans h'.reserves, ?_, ?_⟩
  · intro block hblock b hb
    rcases List.mem_append.mp hblock with hblock | hblock
    · obtain ⟨r, hr, hk, hover⟩ := h.covered block hblock b hb
      exact ⟨r, h'.reserves.rows r hr, hk, hover⟩
    · exact h'.covered block hblock b hb
  · intro r hr
    rcases h'.fresh r hr with hr | ⟨block, hblock, hr⟩
    · rcases h.fresh r hr with hr | ⟨block, hblock, hr⟩
      · exact Or.inl hr
      · exact Or.inr ⟨block, List.mem_append_left _ hblock, hr⟩
    · exact Or.inr ⟨block, List.mem_append_right _ hblock, hr⟩

theorem Withheld.nil (L : Ledger) : Withheld ed k parents [] L L :=
  ⟨.refl, by simp, fun _ => Or.inl⟩

theorem reserveBlocks_after (blocks : List IPNet) (consumed : Option ℕ)
    (hcut : ∀ block ∈ blocks, ∀ p : Cidr, parents = [p.net] → ∀ b, block.string = some b → b.CutFrom p) :
    postgres.After s (reserveBlocks ed k parents blocks consumed) fun _ s' =>
      Withheld ed k parents blocks s.ledger s'.ledger := by
  induction blocks generalizing s consumed with
  | nil => exact .pure (.nil _)
  | cons block rest ih =>
    apply Database.After.bind
    refine (read_ledger (consumptionAfterAllocate_emits k parents block)).mono ?_
    intro next s₁ h₁
    apply Database.After.bind
    refine (insertReservation_withheld (hcut block List.mem_cons_self)).mono ?_
    intro inserted s₂ h₂
    rw [h₁] at h₂
    have hrest : ∀ b ∈ rest, ∀ p : Cidr, parents = [p.net] → ∀ c, b.string = some c → c.CutFrom p :=
      fun b hb => hcut b (List.mem_cons_of_mem _ hb)
    split
    · apply Database.After.bind
      refine (writeConsumed_after next).mono ?_
      intro _ s₃ h₃
      refine (ih (some next) hrest).mono ?_
      intro _ s' h'
      rw [h₃] at h'
      exact h₂.append h'
    · exact (ih consumed hrest).mono fun _ s' h' => h₂.append h'

theorem reservedBlocks_cutFrom {r : Reservation} {bs : List IPNet} (h : r.blocksIn parents = .ok bs) :
    ∀ block ∈ bs, ∀ p : Cidr, parents = [p.net] → ∀ b, block.string = some b → b.CutFrom p := by
  rintro block hblock p rfl b hb
  obtain ⟨n, start, hat, rfl⟩ := reservedBlocks_blockAt h block hblock
  exact ⟨n, start, hat, hb⟩

theorem materialiseReservations_after (h : s.ledger.objects k = some (.pool pool.core)) :
    postgres.After s (materialiseReservations ed k pool parents) fun _ s' =>
      Materialised ed k parents pool.reservations s.ledger s'.ledger := by
  simp only [materialiseReservations]
  split
  · rename_i hzero
    exact .pure ⟨.refl, fun hnot => by rw [hzero] at hnot; cases hnot⟩
  apply Database.After.step
  intro held es hexec
  obtain ⟨rfl, rfl⟩ := Prod.mk.inj (Except.ok.inj hexec)
  cases hheld : (s.poolRows k).any fun r => r.purpose = .reservation with
  | true =>
    refine .pure ⟨.refl, fun _ hnone => ?_⟩
    obtain ⟨r, hr, hp⟩ := List.any_eq_true.mp hheld
    obtain ⟨o, ho, rfl⟩ := List.mem_map.mp hr
    obtain ⟨hmem, hkey⟩ := List.mem_filter.mp ho
    exact absurd (of_decide_eq_true hp) (hnone o hmem (by simpa using hkey))
  | false =>
    change postgres.After s ((Prog.ofExcept .allocation ((reservationFrom pool.reservations).blocksIn parents)).bind _) _
    apply Database.After.bind
    apply Database.After.ofExcept
    intro blocks hblocks
    apply Database.After.bind
    refine (reserveBlocks_after blocks none (reservedBlocks_cutFrom hblocks)).mono ?_
    intro consumed s₁ h₁
    have hdone : Materialised ed k parents pool.reservations s.ledger s₁.ledger :=
      ⟨h₁.reserves, fun _ _ => ⟨blocks, hblocks, h₁⟩⟩
    cases consumed with
    | none => exact .pure hdone
    | some consumed =>
      refine (persistPoolCapacity_after ?_ consumed).mono ?_
      · rw [h₁.reserves.objects.1]
        exact h
      · intro _ s₂ h₂
        rw [h₂]
        exact hdone

theorem recordBlock_after (h : s.ledger.objects k = some (.pool pool.core)) (block : IPNet) (row : Cidr → Row) :
    postgres.After s (recordBlock pool parents block row k) fun b s' =>
      block.string = some b ∧ s.ledger.Admits (row b) ∧ s'.ledger = s.ledger.add (row b) := by
  apply Database.After.bind
  refine (read_ledger (consumptionAfterAllocate_emits k parents block)).mono ?_
  intro consumed s₁ h₁
  apply Database.After.bind
  apply Database.After.ofOption
  intro b hb
  apply Database.After.bind
  refine (insertAllocation_after (row b)).mono ?_
  rintro _ s₂ ⟨hadm, h₂⟩
  rw [h₁] at hadm h₂
  apply Database.After.bind
  refine (writeConsumed_after consumed).mono ?_
  intro _ s₃ h₃
  apply Database.After.bind
  refine (persistPoolCapacity_after ?_ consumed).mono ?_
  · rw [h₃, h₂]
    exact h
  · intro _ s₄ h₄
    exact .pure ⟨hb, hadm, by rw [h₄, h₃, h₂]⟩

variable (ed) in
/-- A block of a pool was taken: first the pool's reservations were written, then the row of the block. -/
structure Taken (k : Key) (digest : String) (n : ℤ) (row : Cidr → Row) (L mid L' : Ledger) (pool : IPPool)
    (block : IPNet) (b : Cidr) : Prop where
  stored : L.objects k = some (.pool pool)
  reserved : ∃ range, IPPool.range pool = some range ∧ Materialised ed k [range] pool.reservations L mid
  text : block.string = some b
  admits : mid.Admits (row b)
  ledger : L' = mid.add (row b)
  found : ∀ p, At L k pool p → BlockFound p (blocksIn digest (mid.poolRows k)) n block

theorem search_after {α : Type} {f : IPNet → Tx α} {Q : α → Db → Prop} (digest : String) (n : ℤ) {range : IPNet}
    (h : s.ledger.objects k = some (.pool pool.core)) (hrange : IPPool.range pool = some range)
    (hf : ∀ block s₁, Materialised ed k [range] pool.reservations s.ledger s₁.ledger →
      (∀ p, At s.ledger k pool.core p → BlockFound p (blocksIn digest (s₁.ledger.poolRows k)) n block) →
      postgres.After s₁ (f block) Q) :
    postgres.After s (materialiseReservations ed k pool [range] >>= fun _ =>
      findBlock k digest [range] n pool.strategy >>= f) Q := by
  apply Database.After.bind
  refine (materialiseReservations_after h).mono ?_
  intro _ s₁ h₁
  have hfound : postgres.After s₁ (findBlock k digest [range] n pool.strategy) fun block s' =>
      s'.ledger = s₁.ledger ∧
        ∀ p, At s.ledger k pool.core p → BlockFound p (blocksIn digest (s₁.ledger.poolRows k)) n block := by
    refine (findBlock_after digest n pool.strategy).and ?_
    intro block s' hrun p hp
    obtain rfl : range = p.net := by
      have hcidr : pool.allocatedCIDR = some p := hp.range
      simp only [IPPool.range, hcidr, Option.some.injEq] at hrange
      exact hrange.symm
    have hlocked := @findBlock_locked Alone (.object k) k _ p digest n ed (frozen_alone (.object k) k)
      (h₁.reserves.at hp).based pool.strategy
    exact (Database.After.locked hlocked block s' hrun).2
  apply Database.After.bind
  refine hfound.mono ?_
  rintro block s₂ ⟨h₂, hblock⟩
  exact hf block s₂ (h₂ ▸ h₁) (h₂ ▸ hblock)

theorem recordBlock_taken (digest : String) (n : ℤ) (row : Cidr → Row) {range block : IPNet} {s₁ : Db}
    (h : s.ledger.objects k = some (.pool pool.core)) (hrange : IPPool.range pool = some range)
    (h₁ : Materialised ed k [range] pool.reservations s.ledger s₁.ledger)
    (hfound : ∀ p, At s.ledger k pool.core p → BlockFound p (blocksIn digest (s₁.ledger.poolRows k)) n block) :
    postgres.After s₁ (recordBlock pool parents block row k) fun b s' =>
      Taken ed k digest n row s.ledger s₁.ledger s'.ledger pool.core block b := by
  have hstored : s₁.ledger.objects k = some (.pool pool.core) := by
    rw [h₁.reserves.objects.1]
    exact h
  refine (recordBlock_after hstored block row).mono ?_
  rintro b s' ⟨htext, hadm, hs'⟩
  exact ⟨h, ⟨range, hrange, h₁⟩, htext, hadm, hs', hfound⟩

theorem withPool_after {α : Type} {f : IPPool → List IPNet → Tx α} {Q : α → Db → Prop}
    (h : ∀ pool range, s.ledger.objects k = some (.pool pool.core) → IPPool.range pool = some range →
      postgres.After s (f pool [range]) Q) : postgres.After s (withPool k f) Q := by
  apply Database.After.step
  intro o es hexec
  obtain ⟨rfl, rfl⟩ := Prod.mk.inj (Except.ok.inj hexec)
  change postgres.After s ((Prog.ofOption .poolNotFound (asPool (s.object k))).bind _) _
  apply Database.After.bind
  apply Database.After.ofOption
  intro pool hpool
  cases hrange : IPPool.range pool with
  | none =>
    have hparse : parsePoolCIDR pool = .throw .poolCidrUnparsed := by
      simp only [parsePoolCIDR, hrange]
      rfl
    rw [hparse]
    exact .throw
  | some range =>
    have hparse : parsePoolCIDR pool = .pure [range] := by
      simp only [parsePoolCIDR, hrange]
      rfl
    rw [hparse]
    exact h pool range (stored_of_asPool hpool) hrange

theorem allocatePrefix_after (req : PrefixRequest) :
    postgres.After s (allocatePrefix ed req) fun b s' => ∃ mid pool block,
      Taken ed req.poolKey (searchDigest ed req.scopeDigest) req.prefixLen (req.row ed) s.ledger mid s'.ledger pool
        block b := by
  rw [allocatePrefix_eq]
  apply withPool_after
  intro pool range hstored hrange
  refine search_after _ _ hstored hrange ?_
  intro block s₁ h₁ hfound
  refine (recordBlock_taken _ _ _ hstored hrange h₁ hfound).mono ?_
  exact fun b s' h => ⟨_, _, block, h⟩

theorem carveFromPool_after (k : Key) (n : ℤ) (carve : PoolCarve) :
    postgres.After s (carveFromPool ed k n carve) fun block s' => ∃ mid pool b,
      Taken ed k spaceAll n (carve.row k) s.ledger mid s'.ledger pool block b := by
  rw [carveFromPool_eq]
  apply withPool_after
  intro pool range hstored hrange
  refine search_after _ _ hstored hrange ?_
  intro block s₁ h₁ hfound
  apply Database.After.bind
  refine (recordBlock_taken _ _ _ hstored hrange h₁ hfound).mono ?_
  exact fun b s' h => .pure ⟨_, _, b, h⟩

end

end Ipam.Allocator
