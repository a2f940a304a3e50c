import Ipam.Registry.Bindings

namespace Ipam.Registry

open Allocation Allocator Cascade Database Transaction

def Unreserved (L : Ledger) (k : Key) (blocks : List IPNet) : Prop :=
  ∀ r ∈ L.rows, r.poolKey = k → r.purpose ≠ .reservation ∧
    ∀ block ∈ blocks, ∀ c, block.string = some c → r.cidr.overlaps c = false

def Reserving (L : Ledger) (k : Key) (blocks : List IPNet) : Prop :=
  ∀ block ∈ blocks, ∀ c, block.string = some c → ∀ f x, c.Mem f x →
    ∃ r ∈ L.rows, r.poolKey = k ∧ r.purpose = .reservation ∧ r.cidr.Mem f x

def Secured (L : Ledger) (k : Key) (range : IPNet) (spec : Option Reservation) : Prop :=
  ∀ blocks, (reservationFrom spec).blocksIn [range] = .ok blocks → Unreserved L k blocks ∨ Reserving L k blocks

def Guarded (L : Ledger) : Prop :=
  ∀ k pool range, L.objects k = some (.pool pool) → IPPool.range pool = some range →
    Secured L k range pool.reservations

section

variable {ed digest : String} {L L' mid carved : Ledger} {k : Key} {n : ℤ} {row : Cidr → Row} {pool : IPPool}
  {block range : IPNet} {b : Cidr} {spec : Option Reservation} {blocks : List IPNet}

theorem Reserving.mono (h : Reserving L k blocks)
    (hkept : ∀ r ∈ L.rows, r.poolKey = k → r.purpose = .reservation → r ∈ L'.rows) : Reserving L' k blocks := by
  intro block hblock c hc f x hx
  obtain ⟨r, hr, hk, hpurpose, hmem⟩ := h block hblock c hc f x hx
  exact ⟨r, hkept r hr hk hpurpose, hk, hpurpose, hmem⟩

theorem Unreserved.mono (h : Unreserved L k blocks)
    (hrows : ∀ r ∈ L'.rows, r.poolKey = k → ∃ o ∈ L.rows, o.unclaimed = r.unclaimed) : Unreserved L' k blocks := by
  intro r hr hk
  obtain ⟨o, ho, heq⟩ := hrows r hr hk
  have hkey : o.unclaimed.poolKey = r.unclaimed.poolKey := congrArg Row.poolKey heq
  have hpurpose : o.unclaimed.purpose = r.unclaimed.purpose := congrArg Row.purpose heq
  have hcidr : o.unclaimed.cidr = r.unclaimed.cidr := congrArg Row.cidr heq
  simp only [Row.unclaimed] at hkey hpurpose hcidr
  rw [← hpurpose, ← hcidr]
  exact h o ho (hkey.trans hk)

theorem Secured.keeps (h : Secured L k range spec)
    (hrows : ∀ r ∈ L'.rows, r.poolKey = k → ∃ o ∈ L.rows, o.unclaimed = r.unclaimed)
    (hkept : (∀ r ∈ L.rows, r.poolKey = k → r.purpose = .reservation → r ∈ L'.rows) ∨ ∀ r ∈ L'.rows, r.poolKey ≠ k) :
    Secured L' k range spec := by
  intro blocks hblocks
  cases hkept with
  | inl hkept => exact (h blocks hblocks).imp (fun hv => hv.mono hrows) fun hr => hr.mono hkept
  | inr hnone => exact .inl fun r hr hk => absurd hk (hnone r hr)

theorem Secured.of_empty (h : ∀ r ∈ L.rows, r.poolKey ≠ k) : Secured L k range spec :=
  fun _ _ => .inl fun r hr hk => absurd hk (h r hr)

theorem Withheld.reserving {p : Cidr} {r : Reservation} (h : Withheld ed k [p.net] blocks L L')
    (hblocks : r.blocksIn [p.net] = .ok blocks) (hm : ¬ p.MeetsMapped) (hv : Unreserved L k blocks) :
    Reserving L' k blocks := by
  intro block hblock c hc f x hx
  obtain ⟨n, htexts⟩ := blocksIn_texts hm hblocks
  obtain ⟨r, hr, hk, hover⟩ := h.covered block hblock c hc
  cases h.fresh r hr with
  | inl hold =>
    rw [(hv r hold hk).2 block hblock c hc] at hover
    cases hover
  | inr hnew =>
    obtain ⟨block', hblock', htext, heq⟩ := hnew
    obtain ⟨d, -, hd, hlen⟩ := htexts block hblock
    obtain rfl : d = c := Option.some.inj (hd.symm.trans hc)
    obtain ⟨d', -, hd', hlen'⟩ := htexts block' hblock'
    obtain rfl : d' = r.cidr := Option.some.inj (hd'.symm.trans htext)
    have hwithin : d.within r.cidr = true := by
      apply Cidr.within_of_overlaps
      · rw [hlen, hlen']
      · rwa [Cidr.overlaps_comm]
    refine ⟨r, hr, hk, ?_, hx.of_within hwithin⟩
    rw [heq]
    rfl

theorem Secured.materialised {p : Cidr} (h : Secured L k p.net spec) (hm : ¬ p.MeetsMapped)
    (hmat : Materialised ed k [p.net] spec L L') (hblocks : (reservationFrom spec).blocksIn [p.net] = .ok blocks) :
    Reserving L' k blocks := by
  cases h blocks hblocks with
  | inr hr => exact hr.mono fun r hr _ _ => hmat.reserves.rows r hr
  | inl hv =>
    cases hzero : (reservationFrom spec).isZero with
    | true =>
      simp only [Reservation.isZero, Bool.and_eq_true, beq_iff_eq] at hzero
      simp only [Reservation.blocksIn, reservedBlocks, hzero, lt_self_iff_false, or_self, and_self, if_true,
        if_false] at hblocks
      obtain rfl := Except.ok.inj hblocks
      rintro block ⟨⟩
    | false =>
      obtain ⟨blocks', hblocks', hwithheld⟩ := hmat.withheld hzero fun r hr hk => (hv r hr hk).1
      obtain rfl : blocks' = blocks := Except.ok.inj (hblocks'.symm.trans hblocks)
      exact Withheld.reserving hwithheld hblocks hm hv

theorem Taken.reserving (h : Guarded L) (hr : Ranged L) (htaken : Taken ed k digest n row L mid carved pool block b)
    (hrange : IPPool.range pool = some range)
    (hblocks : (reservationFrom pool.reservations).blocksIn [range] = .ok blocks) : Reserving mid k blocks := by
  obtain ⟨p, hat, hm⟩ := hr.pool_at htaken
  obtain rfl := Ranged.range_eq hat hrange
  obtain ⟨range', hrange', hmat⟩ := htaken.reserved
  obtain rfl := Ranged.range_eq hat hrange'
  exact (h k pool _ htaken.stored hrange).materialised hm hmat hblocks

theorem Taken.avoids (h : Guarded L) (hr : Ranged L) (htaken : Taken ed k digest n row L mid carved pool block b)
    (hrange : IPPool.range pool = some range)
    (hblocks : (reservationFrom pool.reservations).blocksIn [range] = .ok blocks) :
    block = b.net ∧ ∀ reserved ∈ blocks, ∀ ip, b.net.contains ip = true → reserved.contains ip = false := by
  have hreserving := Taken.reserving h hr htaken hrange hblocks
  obtain ⟨p, hat, hm⟩ := hr.pool_at htaken
  obtain rfl := Ranged.range_eq hat hrange
  obtain ⟨_, htexts⟩ := blocksIn_texts hm hblocks
  have hfound := htaken.found p hat
  refine ⟨(hfound.net htaken.text hm).1, ?_⟩
  intro reserved hreserved ip hip
  obtain ⟨c, rfl, hc, -⟩ := htexts reserved hreserved
  refine Bool.eq_false_iff.mpr fun hmem => ?_
  obtain ⟨r, hrow, hk, hpurpose, hx⟩ := hreserving _ hreserved c hc _ _ ((c.contains_net ip).mp hmem)
  have hblocked : r.cidr ∈ blocksIn digest (mid.poolRows k) := by
    refine List.mem_map.mpr ⟨r.unclaimed, List.mem_filter.mpr ⟨mid.mem_poolRows hrow hk, ?_⟩, rfl⟩
    simp [Row.blocks, Row.unclaimed, hpurpose]
  have hapart := hfound.apart htaken.text hm r.cidr hblocked
  rw [(r.cidr.overlaps_iff_mem b).mpr ⟨_, _, hx, (b.contains_net ip).mp hip⟩] at hapart
  cases hapart

namespace Guarded

theorem keeps (h : Guarded L)
    (hpools : ∀ k pool, L'.objects k = some (.pool pool) → L.objects k = some (.pool pool) ∧
      ((∀ r ∈ L.rows, r.poolKey = k → r.purpose = .reservation → r ∈ L'.rows) ∨ ∀ r ∈ L'.rows, r.poolKey ≠ k))
    (hrows : ∀ r ∈ L'.rows, ∃ o ∈ L.rows, o.unclaimed = r.unclaimed) : Guarded L' := by
  intro k pool range hpool hrange
  obtain ⟨hold, hkept⟩ := hpools k pool hpool
  exact (h k pool range hold hrange).keeps (fun r hr _ => hrows r hr) hkept

theorem put_other (h : Guarded L) {o : Object} (ho : ∀ pool, o ≠ .pool pool) : Guarded (L.put k o) := by
  apply h.keeps
  · intro k' pool hpool
    obtain ⟨-, hnew⟩ | ⟨-, hold⟩ := Ledger.put_objects.mp hpool
    · exact absurd hnew.symm (ho pool)
    · exact ⟨hold, .inl fun r hr _ _ => hr⟩
  · exact fun r hr => ⟨r, hr, rfl⟩

theorem remove (h : Guarded L) : Guarded (L.remove k) := by
  apply h.keeps
  · exact fun k' pool hpool => ⟨(Ledger.remove_objects.mp hpool).2, .inl fun r hr _ _ => hr⟩
  · exact fun r hr => ⟨r, hr, rfl⟩

theorem put_pool (h : Guarded L)
    (hpool : ∀ range, IPPool.range pool = some range → Secured L k range pool.reservations) :
    Guarded (L.put k (.pool pool)) := by
  intro k' pool' range hpool' hrange
  obtain ⟨rfl, hnew⟩ | ⟨-, hold⟩ := Ledger.put_objects.mp hpool'
  · obtain rfl := Object.pool.inj hnew
    exact hpool range hrange
  · exact h k' pool' range hold hrange

theorem put_absent (h : Guarded L) (hc : RowsStored L) (hk : L.objects k = none) :
    Guarded (L.put k (.pool pool)) := by
  apply h.put_pool
  refine fun range _ => Secured.of_empty ?_
  rintro r hr rfl
  obtain ⟨pool', range', hstored, -⟩ := hc.pools r hr
  rw [hk] at hstored
  cases hstored

theorem taken (h : Guarded L) (hr : Ranged L) (htaken : Taken ed k digest n row L mid carved pool block b)
    (hrow : (row b).poolKey = k) : Guarded carved := by
  have hobjects := (taken_objects htaken).1
  obtain ⟨range', -, hmat⟩ := htaken.reserved
  intro k' pool' range hpool' hrange
  rw [hobjects] at hpool'
  by_cases hk : k' = k
  · subst hk
    rw [htaken.stored] at hpool'
    obtain rfl : pool = pool' := by simpa using hpool'
    intro blocks hblocks
    refine .inr ((Taken.reserving h hr htaken hrange hblocks).mono fun r hr _ _ => ?_)
    rw [htaken.ledger]
    exact List.mem_append_left _ hr
  · refine (h k' pool' range hpool' hrange).keeps ?_ (.inl ?_)
    · intro r hr hkey
      obtain hold | hnew | hnew := Taken.mem htaken hr
      · exact ⟨r, hold, rfl⟩
      · rw [hnew] at hkey
        exact absurd hkey.symm hk
      · rw [hnew, hrow] at hkey
        exact absurd hkey.symm hk
    · intro r hr _ _
      rw [htaken.ledger]
      exact List.mem_append_left _ (hmat.reserves.rows r hr)

theorem provisioned {level : CascadeLevel} {source : Key} (h : Guarded L) (hc : Consistent L) (hr : Ranged L)
    (hprov : Provisioned ed level source n L mid carved L' pool block b) : Guarded L' := by
  have hranged : Ranged (L.name (level.identity level.poolKey)) := ⟨hr.derived, hr.unmapped, hr.rows⟩
  have hstored : RowsStored (L.name (level.identity level.poolKey)) := ⟨hc.keyed, hc.pools⟩
  obtain ⟨p, -, hm, -, rfl, hwithin, -⟩ := hranged.found hprov.taken
  have hcarved : Guarded carved := taken (L := L.name (level.identity level.poolKey)) h hranged hprov.taken rfl
  have hrow : ∀ b, (level.carve.row source b).poolKey = source := fun _ => rfl
  have hput : Guarded (carved.put level.poolKey (.pool (newProvisionedPool level (keyName source) n b.net).core)) :=
    hcarved.put_absent (hstored.taken hrow hprov.taken) hprov.absent
  have hreserves := hprov.materialised.reserves
  obtain ⟨hobjects, -⟩ := Reserves.objects hreserves
  intro k pool' range hpool' hrange
  rw [hobjects] at hpool'
  by_cases hk : k = level.poolKey
  · subst hk
    obtain rfl : (newProvisionedPool level (keyName source) n b.net).core = pool' := by
      simpa [Ledger.put] using hpool'
    obtain rfl : b.net = range := by
      have hb : (newProvisionedPool level (keyName source) n b.net).core.allocatedCIDR = some b := hprov.taken.text
      simp only [IPPool.range, hb] at hrange
      exact Option.some.inj hrange
    exact fun blocks hblocks => .inr ((hput _ _ _ hpool' hrange).materialised (Cidr.not_meets_of_within hm hwithin)
      hprov.materialised hblocks)
  · refine (hput k pool' range hpool' hrange).keeps ?_ (.inl fun r hr _ _ => hreserves.rows r hr)
    intro r hr hkey
    exact ⟨r, hreserves.rows_of_ne (hkey ▸ hk) hr, rfl⟩

theorem drop (h : Guarded L) {gone : Row → Bool}
    (hgone : ∀ k, (∀ r ∈ L.rows, r.poolKey = k → r.purpose = .reservation → gone r = false) ∨
      ∀ r ∈ L.rows, r.poolKey = k → gone r = true) : Guarded (L.drop gone) := by
  apply h.keeps
  · intro k pool hpool
    refine ⟨hpool, ?_⟩
    cases hgone k with
    | inl hkept =>
      exact .inl fun r hr hk hpurpose => List.mem_filter.mpr ⟨hr, by simp [hkept r hr hk hpurpose]⟩
    | inr hall =>
      refine .inr fun r hr hk => ?_
      obtain ⟨hmem, hnot⟩ := List.mem_filter.mp hr
      simp [hall r hmem hk] at hnot
  · exact fun r hr => ⟨r, (List.mem_filter.mp hr).1, rfl⟩

theorem dropReservations (h : Guarded L) (hempty : ∀ r ∈ L.rows, r.poolKey = k → r.purpose = .reservation) :
    Guarded (L.drop (DeleteCond.matches (.reservationsOf k))) := by
  apply h.drop
  intro k'
  by_cases hk : k' = k
  · subst hk
    exact .inr fun r hr hkey => by simp [DeleteCond.matches, hkey, hempty r hr hkey]
  · exact .inl fun r hr hkey _ => by simp [DeleteCond.matches, hkey, hk]

theorem released (h : Guarded L) (hs : Shaped ed L) : Guarded (released L k) := by
  apply h.keeps
  · intro k' pool hpool
    refine ⟨hpool, .inl fun r hr _ hpurpose => mem_released_of_ne hr ?_⟩
    rw [(hs.rows r hr).of_reservation hpurpose]
    exact fun heq => nomatch heq
  · intro r hr
    obtain ⟨o, ho, heq, -⟩ := of_mem_released hr
    exact ⟨o, ho, heq⟩

theorem disposed (h : Guarded L) {retained : List Key} {allocation : Option Key}
    (hd : Disposed L retained allocation L') : Guarded L' := by
  cases hd with
  | unbound => exact h
  | missing _ _ => exact h
  | kept _ _ => exact h.put_other fun _ => Object.noConfusion
  | removed _ _ => exact h.remove

theorem setClaim (h : Guarded L) (hs : Shaped ed L) (hk : Key.resource k = some .ippools) (claim : Option Key) :
    Guarded (L.setClaim k claim) := by
  apply h.keeps
  · intro k' pool hpool
    refine ⟨hpool, .inl fun r hr _ hpurpose => List.mem_map.mpr ⟨r, hr, if_neg ?_⟩⟩
    rintro rfl
    rw [(hs.rows r hr).of_reservation hpurpose] at hk
    cases hk
  · intro r hr
    obtain ⟨o, ho, rfl⟩ := List.mem_map.mp hr
    refine ⟨o, ho, ?_⟩
    split
    · rfl
    · rfl

theorem clear (h : Guarded L) (hs : Shaped ed L) {tree : List Key} (hk : Key.resource k = some .ippools) :
    Guarded (Ledger.clear L tree [k]) := by
  apply h.keeps
  · intro k' pool hpool
    simp only [Ledger.clear] at hpool
    split at hpool
    · cases hpool
    rename_i hout
    refine ⟨hpool, .inl fun r hr hkey hpurpose => List.mem_filter.mpr ⟨hr, ?_⟩⟩
    have hne : r.allocationKey ≠ k := by
      rintro rfl
      rw [(hs.rows r hr).of_reservation hpurpose] at hk
      cases hk
    simp [hkey, hout, hne]
  · exact fun r hr => ⟨r, (List.mem_filter.mp hr).1, rfl⟩

theorem freeAllocation (h : Guarded L) (hs : Shaped ed L) (hk : Key.resource k = some .ipallocations) :
    Guarded (L.drop fun r => r.allocationKey = k) := by
  apply h.drop
  refine fun k' => .inl fun r hr _ hpurpose => ?_
  have hne : r.allocationKey ≠ k := by
    rintro rfl
    rw [(hs.rows r hr).of_reservation hpurpose] at hk
    cases hk
  simpa using hne

end Guarded

end

/-- The reservations of a pool are changed only while the new ones can still become rows (the pool has no reservation,
and no row where they are), or only to what its reservations cover. -/
def Action.KeepsReserved (L : Ledger) : Action → Prop
  | .updatePool req _ => ∀ old range, L.objects req.key = some (.pool old) → IPPool.range old = some range →
    Secured L req.key range req.pool.reservations
  | _ => True

section

variable {hash : Scope.Text → String} {L L' : Ledger} {a : Action}

theorem Edits.range {pool pool' : IPPool} (h : Edits pool pool') : IPPool.range pool' = IPPool.range pool := by
  simp only [IPPool.range, h.allocatedCIDR, h.cidr]

theorem Change.keepsReserved (h : Change hash L a L') (hc : Consistent L) (ha : a.KeepsReserved L) :
    a.KeepsReserved L' := by
  cases h with
  | @forcePool req _ habsent =>
    refine fun old range _ _ => Secured.of_empty ?_
    intro r hr hkey
    obtain ⟨pool, range, hstored, -⟩ := hc.pools r hr
    rw [hkey, habsent] at hstored
    cases hstored
  | @updatePool req _ old hold hvalid =>
    intro new range hnew hrange
    obtain ⟨-, heq⟩ | ⟨hne, -⟩ := Ledger.put_objects.mp hnew
    · obtain rfl := Object.pool.inj heq
      exact ha old range hold ((edits_of_validateUpdate hvalid).range ▸ hrange)
    · exact absurd rfl hne
  | _ => trivial

theorem Change.guarded (h : Change hash L a L') (hc : Consistent L) (hs : Shaped (emptySpace hash) L) (hr : Ranged L)
    (hg : Guarded L) (ha : a.KeepsReserved L) : Guarded L' := by
  have hstored : RowsStored L := ⟨hc.keyed, hc.pools⟩
  cases h with
  | createClass _ _ => exact hg.put_other fun _ => Object.noConfusion
  | forceClass _ _ => exact hg.put_other fun _ => Object.noConfusion
  | updateClass _ _ => exact hg.put_other fun _ => Object.noConfusion
  | removeClass _ => exact hg.remove
  | createRoot _ _ _ habsent => exact hg.put_absent hstored habsent
  | @authorChild req parent mid carved pool block b _ _ htaken habsent =>
    have hrow := row_of_request (emptySpace hash) (req.prefixRequest parent)
    exact (hg.taken hr htaken rfl).put_absent (hstored.taken (fun b => (hrow b).1) htaken) habsent
  | forcePool _ habsent => exact hg.put_absent hstored habsent
  | @updatePool req _ old hold hvalid =>
    apply hg.put_pool
    intro range hrange
    exact ha old range hold ((edits_of_validateUpdate hvalid).range ▸ hrange)
  | dropReservations _ _ hempty => exact hg.dropReservations hempty
  | removeRoot _ _ _ => exact hg.remove
  | deleteChild _ _ hempty => exact ((hg.dropReservations hempty).released (hs.drop _)).remove
  | removePool _ _ _ => exact hg.remove
  | provision _ _ _ hprov => exact hg.provisioned hc hr hprov
  | bindBlock _ _ _ _ _ _ htaken _ _ =>
    exact ((hg.taken hr htaken rfl).put_other fun _ => Object.noConfusion).put_other fun _ => Object.noConfusion
  | @holdRange req class_ level poolKey carve htarget _ _ _ hmem hkey hpurpose _ _ _ =>
    have hpoolKey : Key.resource poolKey = some .ippools := by
      rw [← hkey]
      exact (hs.rows carve hmem).of_carve hpurpose
    exact (hg.setClaim hs hpoolKey _).put_other fun _ => Object.noConfusion
  | forceClaim _ => exact hg.put_other fun _ => Object.noConfusion
  | updateClaim _ _ => exact hg.put_other fun _ => Object.noConfusion
  | releasing _ _ => exact hg.put_other fun _ => Object.noConfusion
  | releaseClaim _ _ hdisposed _ => exact ((hg.released hs).disposed hdisposed).remove
  | releaseRange _ _ hmem _ hpurpose _ _ => exact (hg.clear hs ((hs.rows _ hmem).of_carve hpurpose)).remove
  | removeRangeClaim _ _ _ _ => exact hg.remove
  | forceAllocation _ => exact hg.put_other fun _ => Object.noConfusion
  | updateAllocation _ _ => exact hg.put_other fun _ => Object.noConfusion
  | freeAllocation _ _ _ => exact (hg.freeAllocation hs rfl).remove

end

abbrev ReservedRun (hash : Scope.Text → String) : Db → Prop :=
  Served (serve hash) (fun a s => a.Unmapped ∧ a.KeepsReserved s.ledger) Db.empty

/-- The objects and the rows are those between two changes of the request, or at its ends. -/
def During (hash : Scope.Text → String) (a : Action) (s t : Db) : Prop :=
  ∃ L, Changes hash a s.ledger L ∧ t.ledger.objects = L.objects ∧ t.ledger.rows = L.rows

def AvoidsReserved (t : Db) (k : Key) (net : IPNet) : Prop :=
  ∀ pool range blocks, t.pool k = some pool → IPPool.range pool = some range →
    (reservationFrom pool.reservations).blocksIn [range] = .ok blocks →
    ∀ reserved ∈ blocks, ∀ ip, net.contains ip = true → reserved.contains ip = false

section

variable {hash : Scope.Text → String} {s t : Db} {a : Action}

theorem Change.keepsGuarded {L L' : Ledger} (h : Change hash L a L') (hc : Consistent L)
    (hi : Shaped (emptySpace hash) L ∧ Ranged L ∧ Guarded L) (ha : a.Unmapped ∧ a.KeepsReserved L) :
    (Shaped (emptySpace hash) L' ∧ Ranged L' ∧ Guarded L') ∧ a.Unmapped ∧ a.KeepsReserved L' := by
  obtain ⟨hs, hr, hg⟩ := hi
  exact ⟨⟨h.shaped hc hs, h.growth.ranged hc hr ha.1, h.guarded hc hs hr hg ha.2⟩, ha.1, h.keepsReserved hc ha.2⟩

theorem during_guarded (hs : ReservedRun hash s) (ha : a.Unmapped ∧ a.KeepsReserved s.ledger)
    (ht : During hash a s t) : Ranged t.ledger ∧ Guarded t.ledger := by
  obtain ⟨-, hc, hi⟩ := served_inv (I := fun L => Shaped (emptySpace hash) L ∧ Ranged L ∧ Guarded L)
    ⟨shaped_empty _, ranged_empty, by simp [Guarded, Db.ledger, Db.empty, Db.object]⟩
    (fun hc hi ha h => h.keepsGuarded hc hi ha) hs
  obtain ⟨L, hchanges, hobjects, hrows⟩ := ht
  obtain ⟨-, ⟨-, hr, hg⟩, -⟩ := changes_inv (fun hc hi ha h => Change.keepsGuarded h hc hi ha) hc hi ha hchanges
  refine ⟨⟨?_, ?_, ?_⟩, ?_⟩
  · rw [hobjects]
    exact hr.derived
  · rw [hobjects]
    exact hr.unmapped
  · rw [hobjects, hrows]
    exact hr.rows
  · simp only [Guarded, Secured, Unreserved, Reserving, hobjects, hrows]
    exact hg

theorem Taken.avoidsReserved {ed digest : String} {k : Key} {n : ℤ} {row : Cidr → Row} {mid carved : Ledger}
    {pool : IPPool} {block : IPNet} {b : Cidr} (hr : Ranged t.ledger) (hg : Guarded t.ledger)
    (h : Taken ed k digest n row t.ledger mid carved pool block b) :
    AvoidsReserved t k b.net ∧ AvoidsReserved t k block := by
  have havoids : ∀ pool' range blocks, t.pool k = some pool' → IPPool.range pool' = some range →
      (reservationFrom pool'.reservations).blocksIn [range] = .ok blocks → block = b.net ∧
        ∀ reserved ∈ blocks, ∀ ip, b.net.contains ip = true → reserved.contains ip = false := by
    intro pool' range blocks hpool' hrange hblocks
    have hcore : t.ledger.pool k = some pool'.core := by rw [ledger_pool, hpool', Option.map_some]
    have hpool : t.ledger.pool k = some pool := by simp [Ledger.pool, h.stored]
    obtain rfl : pool'.core = pool := Option.some.inj (hcore.symm.trans hpool)
    exact Taken.avoids hg hr h hrange hblocks
  constructor
  · intro pool' range blocks hpool' hrange hblocks
    exact (havoids pool' range blocks hpool' hrange hblocks).2
  · intro pool' range blocks hpool' hrange hblocks
    obtain ⟨rfl, hapart⟩ := havoids pool' range blocks hpool' hrange hblocks
    exact hapart

theorem reserved_avoided (hs : ReservedRun hash s) (ha : a.Unmapped ∧ a.KeepsReserved s.ledger)
    (ht : During hash a s t) :
    (∀ req b t', postgres.run (allocatePrefix (emptySpace hash) req) t = .ok (b, t') →
      AvoidsReserved t req.poolKey b.net) ∧
    ∀ k n carve block t', postgres.run (carveFromPool (emptySpace hash) k n carve) t = .ok (block, t') →
      AvoidsReserved t k block := by
  obtain ⟨hr, hg⟩ := during_guarded hs ha ht
  constructor
  · intro req b t' hrun
    obtain ⟨mid, pool, block, htaken⟩ := allocatePrefix_after req b t' hrun
    exact (Taken.avoidsReserved hr hg htaken).1
  · intro k n carve block t' hrun
    obtain ⟨mid, pool, b, htaken⟩ := carveFromPool_after k n carve block t' hrun
    exact (Taken.avoidsReserved hr hg htaken).2

end

def leadingHosts (n : ℤ) : Option Reservation :=
  some ⟨32, n, 0⟩

def leadingPoolRequest (n : ℤ) : PoolRequest :=
  { hostsPoolRequest 0 with pool := { (hostsPoolRequest 0).pool with reservations := leadingHosts n } }

def nextHost : PrefixRequest :=
  ⟨poolStorageKey "infra" "office", 32, "", allocationObjectKey "infra" "default" "next", none, none⟩

def leadingDb : Db :=
  serve byteChars (.createClaim (hostsRequest none)) (serve byteChars (.createPool (leadingPoolRequest 1))
    (serve byteChars (.createClass hostsClassRequest) Db.empty))

def reservedAt (t : Db) (k : Key) : Option (List IPNet) := do
  let pool ← t.pool k
  let range ← IPPool.range pool
  ((reservationFrom pool.reservations).blocksIn [range]).toOption

theorem leadingDb_run : ReservedRun byteChars leadingDb := by
  refine .serve _ (.serve _ (.serve _ .start ⟨trivial, trivial⟩) ⟨?_, trivial⟩) ⟨trivial, trivial⟩
  intro cidr hcidr
  obtain rfl : officePool.net = cidr := Option.some.inj hcidr
  exact ⟨officePool, officePool.string_net, by decide⟩

theorem reserved_avoided_next :
    ReservedRun byteChars leadingDb ∧ ∃ t', postgres.run (allocatePrefix (emptySpace byteChars) nextHost) leadingDb =
      .ok (hostAddress 2, t') ∧ AvoidsReserved leadingDb (poolStorageKey "infra" "office") (hostAddress 2).net := by
  have hrun : ((postgres.run (allocatePrefix (emptySpace byteChars) nextHost) leadingDb).toOption.map Prod.fst) =
      some (hostAddress 2) := by
    decide +kernel
  cases hanswer : postgres.run (allocatePrefix (emptySpace byteChars) nextHost) leadingDb with
  | error e =>
    rw [hanswer] at hrun
    cases hrun
  | ok answer =>
    obtain ⟨b, t'⟩ := answer
    rw [hanswer] at hrun
    obtain rfl : b = hostAddress 2 := Option.some.inj hrun
    have havoided := reserved_avoided (a := .createClaim (hostsRequest none)) (t := leadingDb) leadingDb_run
      ⟨trivial, trivial⟩ ⟨leadingDb.ledger, .refl, rfl, rfl⟩
    exact ⟨leadingDb_run, t', rfl, havoided.1 nextHost _ t' hanswer⟩

theorem reserved_handedOut :
    Served (serve byteChars) (fun _ _ => True) Db.empty (serve byteChars (.updatePool (leadingPoolRequest 3) false) leadingDb) ∧
      ((postgres.run (allocatePrefix (emptySpace byteChars) nextHost)
        (serve byteChars (.updatePool (leadingPoolRequest 3) false) leadingDb)).toOption.map Prod.fst) = some (hostAddress 2) ∧
      reservedAt (serve byteChars (.updatePool (leadingPoolRequest 3) false) leadingDb) (poolStorageKey "infra" "office") =
        some [(hostAddress 0).net, (hostAddress 1).net, (hostAddress 2).net] :=
  ⟨.serve _ (.serve _ (.serve _ (.serve _ .start trivial) trivial) trivial) trivial, by decide +kernel,
    by decide +kernel⟩

end Ipam.Registry
