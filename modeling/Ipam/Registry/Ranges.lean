import Ipam.Registry.Growth

namespace Ipam.Registry

open Allocation Allocator Cascade Database Transaction

def PoolRequest.Unmapped (req : PoolRequest) : Prop :=
  ∀ cidr, req.pool.cidr = some cidr → ∃ p, cidr.string = some p ∧ ¬ p.MeetsMapped

def Action.Unmapped : Action → Prop
  | .createPool req => req.Unmapped
  | .updatePool req true => req.Unmapped
  | _ => True

structure Ranged (L : Ledger) : Prop where
  derived : ∀ k pool, L.objects k = some (.pool pool) → pool.allocatedCIDR = none → pool.cidr = none
  unmapped : ∀ k pool p, L.objects k = some (.pool pool) → pool.allocatedCIDR = some p → ¬ p.MeetsMapped
  rows : ∀ r ∈ L.rows, ∀ pool p, L.objects r.poolKey = some (.pool pool) → pool.allocatedCIDR = some p →
    r.cidr.CutFrom p

theorem preparePoolForCreate_core (p : IPPool) :
    (preparePoolForCreate p).core =
      { p with
        strategy := if p.strategy = .unset then .firstFit else p.strategy
        allocatedCIDR := if p.parentPoolRef = none then p.cidr.bind IPNet.string else none
        statusFamily := none
        scopeDigest := ""
        capacity := none } := by
  simp only [preparePoolForCreate]
  split
  · rename_i hparent hcidr
    rw [core_setPoolStatusCapacity, hparent, if_pos rfl, hcidr]
    rfl
  · rename_i hother
    cases hparent : p.parentPoolRef with
    | some parent => simp [IPPool.core]
    | none =>
      cases hcidr : p.cidr with
      | some cidr => exact absurd hcidr (hother cidr hparent)
      | none => simp [IPPool.core]

theorem row_of_request (ed : String) (req : PrefixRequest) :
    ∀ b, (req.row ed b).poolKey = req.poolKey ∧ (req.row ed b).cidr = b :=
  fun _ => ⟨rfl, rfl⟩

theorem prepared_derived {req : PoolRequest} (hvalid : validateIPPool (preparePoolForCreate req.pool) = true)
    (hunmapped : req.Unmapped)
    (hnone : (if req.pool.parentPoolRef = none then req.pool.cidr.bind IPNet.string else none) = none) :
    req.pool.cidr = none := by
  have hcore : validateIPPool (preparePoolForCreate req.pool).core = true := hvalid
  rw [preparePoolForCreate_core] at hcore
  cases hparent : req.pool.parentPoolRef with
  | some parent =>
    simp only [validateIPPool, hparent, Bool.and_eq_true] at hcore
    simpa using hcore.1.1.1.1.1.1
  | none =>
    cases hcidr : req.pool.cidr with
    | none => rfl
    | some cidr =>
      obtain ⟨p, hp, -⟩ := hunmapped cidr hcidr
      simp [hparent, hcidr, hp] at hnone

theorem prepared_unmapped {req : PoolRequest} (hunmapped : req.Unmapped) (p : Cidr)
    (hp : (if req.pool.parentPoolRef = none then req.pool.cidr.bind IPNet.string else none) = some p) :
    ¬ p.MeetsMapped := by
  by_cases hroot : req.pool.parentPoolRef = none
  · simp only [hroot, if_true] at hp
    obtain ⟨cidr, hcidr, hstring⟩ := Option.bind_eq_some_iff.mp hp
    obtain ⟨p', hp', hm⟩ := hunmapped cidr hcidr
    obtain rfl : p' = p := Option.some.inj (hp'.symm.trans hstring)
    exact hm
  · simp [hroot] at hp

section

variable {hash : Scope.Text → String} {L L' mid carved : Ledger} {ed digest : String} {k : Key} {n : ℤ}
  {row : Cidr → Row} {pool : IPPool} {block : IPNet} {b : Cidr}

namespace Ranged

theorem pool_at (h : Ranged L) (htaken : Taken ed k digest n row L mid carved pool block b) :
    ∃ p, At L k pool p ∧ ¬ p.MeetsMapped := by
  obtain ⟨range, hrange, -⟩ := htaken.reserved
  cases hp : pool.allocatedCIDR with
  | none =>
    simp only [IPPool.range, hp, h.derived k pool htaken.stored hp] at hrange
    cases hrange
  | some p =>
    refine ⟨p, ⟨htaken.stored, hp, ?_⟩, h.unmapped k pool p htaken.stored hp⟩
    intro r hr hk
    exact h.rows r hr pool p (hk ▸ htaken.stored) hp

theorem range_eq {p : Cidr} {range : IPNet} (h : At L k pool p) (hrange : IPPool.range pool = some range) :
    range = p.net := by
  simp only [IPPool.range, h.range] at hrange
  exact (Option.some.inj hrange).symm

theorem found (h : Ranged L) (htaken : Taken ed k digest n row L mid carved pool block b) :
    ∃ p, At L k pool p ∧ ¬ p.MeetsMapped ∧ At mid k pool p ∧ block = b.net ∧ b.within p = true ∧ b.len = n.toNat := by
  obtain ⟨p, hat, hm⟩ := h.pool_at htaken
  obtain ⟨range, hrange, hmat⟩ := htaken.reserved
  have hreserves := hmat.reserves
  rw [range_eq hat hrange] at hreserves
  have hmid : At mid k pool p := Reserves.at hreserves hat
  exact ⟨p, hat, hm, hmid, (htaken.found p hat).net htaken.text hm⟩

theorem taken (h : Ranged L) (htaken : Taken ed k digest n row L mid carved pool block b)
    (hrow : ∀ b, (row b).poolKey = k ∧ (row b).cidr = b) : Ranged carved := by
  obtain ⟨p, hat, hm, hmid, -, hwithin, -⟩ := h.found htaken
  obtain ⟨range, hrange, hmat⟩ := htaken.reserved
  obtain ⟨hobjects, -⟩ := taken_objects htaken
  refine ⟨by rw [hobjects]; exact h.derived, by rw [hobjects]; exact h.unmapped, ?_⟩
  intro r hr pool' p' hstored hp'
  rw [hobjects] at hstored
  rw [htaken.ledger] at hr
  by_cases hk : r.poolKey = k
  · rw [hk, htaken.stored] at hstored
    obtain rfl : pool = pool' := by simpa using hstored
    obtain rfl : p = p' := Option.some.inj (hat.range.symm.trans hp')
    cases List.mem_append.mp hr with
    | inl hr => exact hmid.rows r hr hk
    | inr hr =>
      rw [List.mem_singleton.mp hr, (hrow b).2]
      exact Cidr.CutFrom.of_within hwithin
  · -- the rows of the other pools were there before
    have hold : r ∈ L.rows := by
      cases List.mem_append.mp hr with
      | inl hr => exact hmat.reserves.rows_of_ne hk hr
      | inr hr =>
        rw [List.mem_singleton.mp hr] at hk
        exact absurd (hrow b).1 hk
    exact h.rows r hold pool' p' hstored hp'

theorem put_absent (h : Ranged L) (hc : RowsStored L) (hk : L.objects k = none)
    (hderived : pool.allocatedCIDR = none → pool.cidr = none)
    (hunmapped : ∀ p, pool.allocatedCIDR = some p → ¬ p.MeetsMapped) : Ranged (L.put k (.pool pool)) := by
  refine ⟨?_, ?_, ?_⟩
  · intro k' pool' hpool'
    obtain ⟨-, hnew⟩ | ⟨-, hold⟩ := Ledger.put_objects.mp hpool'
    · obtain rfl := Object.pool.inj hnew
      exact hderived
    · exact h.derived k' pool' hold
  · intro k' pool' p hpool'
    obtain ⟨-, hnew⟩ | ⟨-, hold⟩ := Ledger.put_objects.mp hpool'
    · obtain rfl := Object.pool.inj hnew
      exact hunmapped p
    · exact h.unmapped k' pool' p hold
  · intro r hr pool' p hpool'
    obtain ⟨heq, -⟩ | ⟨-, hold⟩ := Ledger.put_objects.mp hpool'
    · obtain ⟨pool'', range, hstored, -⟩ := hc.pools r hr
      rw [heq, hk] at hstored
      cases hstored
    · exact h.rows r hr pool' p hold

theorem put_other (h : Ranged L) {o : Object} (ho : ∀ pool, o ≠ .pool pool) : Ranged (L.put k o) := by
  have hpool : ∀ {k' : Key} {pool : IPPool}, (L.put k o).objects k' = some (.pool pool) →
      L.objects k' = some (.pool pool) := by
    intro k' pool hput
    obtain ⟨-, hnew⟩ | ⟨-, hold⟩ := Ledger.put_objects.mp hput
    · exact absurd hnew.symm (ho pool)
    · exact hold
  exact ⟨fun k' pool hk => h.derived k' pool (hpool hk), fun k' pool p hk => h.unmapped k' pool p (hpool hk),
    fun r hr pool p hk => h.rows r hr pool p (hpool hk)⟩

theorem shrinks (h : Ranged L) (hs : Shrinks L L') : Ranged L' := by
  refine ⟨?_, ?_, ?_⟩
  · intro k pool' hpool' hnone
    obtain ⟨pool, hpool, rfl | hedit⟩ := hs.pools k pool' hpool'
    · exact h.derived k pool' hpool hnone
    · rw [hedit.cidr]
      exact h.derived k pool hpool (hedit.allocatedCIDR ▸ hnone)
  · intro k pool' p hpool' hp
    obtain ⟨pool, hpool, rfl | hedit⟩ := hs.pools k pool' hpool'
    · exact h.unmapped k pool' p hpool hp
    · exact h.unmapped k pool p hpool (hedit.allocatedCIDR ▸ hp)
  · intro r hr pool' p hpool' hp
    obtain ⟨o, ho, heq⟩ := hs.rows r hr
    have hkey : o.poolKey = r.poolKey := (congrArg Row.poolKey heq :)
    have hcidr : o.cidr = r.cidr := (congrArg Row.cidr heq :)
    rw [← hkey] at hpool'
    rw [← hcidr]
    obtain ⟨pool, hpool, rfl | hedit⟩ := hs.pools o.poolKey pool' hpool'
    · exact h.rows o ho pool' p hpool hp
    · exact h.rows o ho pool p hpool (hedit.allocatedCIDR ▸ hp)

theorem provisioned {level : CascadeLevel} {source : Key} (h : Ranged L) (hc : Consistent L)
    (hprov : Provisioned ed level source n L mid carved L' pool block b) : Ranged L' := by
  have hnamed : Ranged (L.name (level.identity level.poolKey)) := ⟨h.derived, h.unmapped, h.rows⟩
  have hrow : ∀ b, (level.carve.row source b).poolKey = source ∧ (level.carve.row source b).cidr = b :=
    fun _ => ⟨rfl, rfl⟩
  have hstored : RowsStored (L.name (level.identity level.poolKey)) := ⟨hc.keyed, hc.pools⟩
  obtain ⟨p, -, hm, -, rfl, hwithin, -⟩ := hnamed.found hprov.taken
  have hcarved := hnamed.taken hprov.taken hrow
  have hrows := hstored.taken (fun b => (hrow b).1) hprov.taken
  let new := newProvisionedPool level (keyName source) n b.net
  have hb : new.core.allocatedCIDR = some b := hprov.taken.text
  have hput : Ranged (carved.put level.poolKey (.pool new.core)) := by
    apply hcarved.put_absent hrows hprov.absent
    · intro hnone
      rw [hb] at hnone
      cases hnone
    · intro p' hp'
      rw [hb] at hp'
      obtain rfl := Option.some.inj hp'
      exact Cidr.not_meets_of_within hm hwithin
  have hat : At (carved.put level.poolKey (.pool new.core)) level.poolKey new.core b := by
    refine ⟨Function.update_self _ _ _, hb, ?_⟩
    intro r hr hk
    obtain ⟨pool', range, hpool', -⟩ := hrows.pools r hr
    rw [hk, hprov.absent] at hpool'
    cases hpool'
  have hreserves := hprov.materialised.reserves
  have hat' := Reserves.at hreserves hat
  obtain ⟨hobjects, -⟩ := Reserves.objects hreserves
  refine ⟨by rw [hobjects]; exact hput.derived, by rw [hobjects]; exact hput.unmapped, ?_⟩
  intro r hr pool' p' hpool' hp'
  by_cases hk : r.poolKey = level.poolKey
  · rw [hk, hat'.stored] at hpool'
    obtain rfl : new.core = pool' := by simpa using hpool'
    obtain rfl : b = p' := Option.some.inj (hb.symm.trans hp')
    exact hat'.rows r hr hk
  · rw [hobjects] at hpool'
    exact hput.rows r (hreserves.rows_of_ne hk hr) pool' p' hpool' hp'

end Ranged

theorem Growth.ranged {a : Action} (h : Growth hash L a L') (hc : Consistent L) (hL : Ranged L) (ha : a.Unmapped) :
    Ranged L' := by
  cases h with
  | nothing hs => exact hL.shrinks hs
  | class_ _ _ _ hledger =>
    rw [hledger]
    exact hL.put_other (by simp)
  | @pool req haction hvalid habsent hledger =>
    have hunmapped : req.Unmapped := by
      obtain ⟨rfl, -⟩ | rfl := haction
      · exact ha
      · exact ha
    rw [hledger, preparePoolForCreate_core]
    apply hL.put_absent ⟨hc.keyed, hc.pools⟩ habsent
    · exact prepared_derived hvalid hunmapped
    · exact prepared_unmapped hunmapped
  | @child req parent mid carved pool block b _ href hvalid htaken habsent hledger =>
    obtain ⟨p, -, hm, -, -, hwithin, -⟩ := hL.found htaken
    have hrow := row_of_request (emptySpace hash) (req.prefixRequest parent)
    rw [hledger]
    apply (hL.taken htaken hrow).put_absent (RowsStored.taken ⟨hc.keyed, hc.pools⟩ (fun b => (hrow b).1) htaken) habsent
    · intro hnone
      cases hnone
    · intro p' hp'
      obtain rfl : b = p' := Option.some.inj hp'
      exact Cidr.not_meets_of_within hm hwithin
  | provision _ _ _ _ hprov => exact hL.provisioned hc hprov
  | block _ _ _ _ _ htaken hrest =>
    exact (hL.taken htaken (row_of_request _ _)).shrinks hrest

end

theorem ranged_empty : Ranged Db.empty.ledger :=
  ⟨by simp [Db.ledger, Db.empty, Db.object], by simp [Db.ledger, Db.empty, Db.object], by simp [Db.ledger, Db.empty]⟩

end Ipam.Registry
