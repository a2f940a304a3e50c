import Ipam.Registry.Spaces

namespace Ipam.Registry

open Allocation Allocator Cascade Database Transaction

def Action.Spares (k : Key) (a : Action) : Prop :=
  ∀ req, a = .deleteAllocation req → req.allocationKey ≠ k

section

variable {hash : Scope.Text → String} {L L' : Ledger} {a : Action} {r : Row}

-- A row no claim holds is out of reach of every release, since those look for the row by its claim.
theorem Change.retained (h : Change hash L a L') (hs : Shaped (emptySpace hash) L) (hbacks : Row.Backs r)
    (hfree : r.claimKey = none) (ha : a.Spares r.allocationKey) (hr : r ∈ L.rows) : r ∈ L'.rows := by
  cases h with
  | authorChild _ _ htaken _ => exact (Taken.backs htaken hbacks).mpr (.inl hr)
  | bindBlock _ _ _ _ _ _ htaken _ _ => exact (Taken.backs htaken hbacks).mpr (.inl hr)
  | provision _ _ _ hprov => exact (Provisioned.backs hprov hbacks).mpr (.inl hr)
  | dropReservations _ _ _ => exact (drop_backs hs hbacks).mpr hr
  | deleteChild _ _ _ => exact (released_backs (hs.drop _) rfl hbacks).mpr ((drop_backs hs hbacks).mpr hr)
  | holdRange _ _ _ _ hmem hkey hpurpose _ _ _ =>
    exact (setClaim_backs (hkey ▸ (hs.rows _ hmem).of_carve hpurpose) hbacks).mpr hr
  | @releaseClaim req claim disposed _ _ hdisposed _ =>
    change r ∈ disposed.rows
    rw [hdisposed.rows]
    exact mem_released_of_ne hr (by simp [hfree])
  | releaseRange _ _ hmem _ hpurpose _ hclosed => exact clear_backs hs hmem hpurpose hclosed hbacks hr
  | freeAllocation _ _ _ => exact List.mem_filter.mpr ⟨hr, by simpa using (ha _ rfl).symm⟩
  | createClass | forceClass | updateClass | removeClass | createRoot | forcePool | updatePool | removeRoot | removePool
  | forceClaim | updateClaim | releasing | removeRangeClaim | forceAllocation | updateAllocation => exact hr

theorem retained_withheld {s s' : Db} (hs : Served (serve hash) (fun _ _ => True) Db.empty s) (hr : r ∈ s.rows)
    (hbacks : Row.Backs r) (hfree : r.claimKey = none)
    (hrun : Served (serve hash) (fun a _ => a.Spares r.allocationKey) s s') :
    s'.rows.filter (fun o => o.allocationKey = r.allocationKey) = [r] ∧
      ∀ o ∈ s'.rows, o.allocationKey ≠ r.allocationKey → o.poolKey = r.poolKey → SameDigest o r →
        o.cidr.overlaps r.cidr = false := by
  have hstart := @served_inv hash s (fun L => Shaped (emptySpace hash) L ∧ ApartFor SameDigest L) (fun _ _ => True)
    ⟨shaped_empty _, fun r hr => absurd hr List.not_mem_nil⟩
    (fun hc hi _ hchange => ⟨⟨hchange.shaped hc hi.1, hchange.growth.excluded hi.2⟩, trivial⟩) hs
  have hkept : s'.Tabled ∧ Consistent s'.ledger ∧ Shaped (emptySpace hash) s'.ledger ∧ ApartFor SameDigest s'.ledger ∧
      r ∈ s'.ledger.rows := by
    refine Served.inv (I := fun s => s.Tabled ∧ Consistent s.ledger ∧ Shaped (emptySpace hash) s.ledger ∧
      ApartFor SameDigest s.ledger ∧ r ∈ s.ledger.rows) ⟨hstart.1, hstart.2.1, hstart.2.2.1, hstart.2.2.2, hr⟩ ?_ hrun
    rintro a s ⟨htabled, hc, hi⟩ ha
    refine ⟨serve_tabled htabled a, ?_⟩
    obtain ⟨hc', hi', -⟩ := @changes_inv hash
      (fun L => Shaped (emptySpace hash) L ∧ ApartFor SameDigest L ∧ r ∈ L.rows) (fun a _ => a.Spares r.allocationKey)
      (fun hc hi ha hchange => ⟨⟨hchange.shaped hc hi.1, hchange.growth.excluded hi.2.1,
        hchange.retained hi.1 hbacks hfree ha hi.2.2⟩, ha⟩) _ _ _ hc hi ha (serve_changes htabled hc a)
    exact ⟨hc', hi'⟩
  obtain ⟨-, hc, -, hapart, hmem⟩ := hkept
  exact ⟨filter_allocationKey hc.keyed hmem, fun o ho hne hpool hspace => hapart o ho r hmem hpool hne hspace⟩

end

def keepRequest : ClaimRequest :=
  { hostsRequest none with claim := { hostsClaim none with reclaimPolicy := some .retain } }

def retainedDb : Db :=
  serve byteChars (.deleteClaim ⟨"infra", "default", "web", true, []⟩)
    (serve byteChars (.createClaim keepRequest) (hostsDb 0))

def reclaimedDb : Db :=
  serve byteChars (.createClaim { hostsRequest none with name := "mail" }) retainedDb

theorem retained_withheld_mail :
    ∃ r ∈ retainedDb.rows, Row.Backs r ∧ r.claimKey = none ∧
      reclaimedDb.rows.filter (fun o => o.allocationKey = r.allocationKey) = [r] ∧
      ∃ o ∈ reclaimedDb.rows, o.poolKey = r.poolKey ∧ SameDigest o r ∧ o.cidr.overlaps r.cidr = false := by
  have hs : Served (serve byteChars) (fun _ _ => True) Db.empty retainedDb :=
    .serve _ (.serve _ (.serve _ (.serve _ .start trivial) trivial) trivial) trivial
  have hfound : (retainedDb.rows.find? fun r => r.claimKey = none ∧ Key.resource r.allocationKey = some .ipallocations ∧
      ∃ o ∈ reclaimedDb.rows, o.allocationKey ≠ r.allocationKey ∧ o.poolKey = r.poolKey ∧
        o.scopeDigest = r.scopeDigest).isSome = true := by
    decide +kernel
  obtain ⟨r, hfind⟩ := Option.isSome_iff_exists.mp hfound
  have hp := List.find?_some hfind
  obtain ⟨hfree, hbacks, o, ho, hne, hpool, hspace⟩ := of_decide_eq_true hp
  have hr := List.mem_of_find?_eq_some hfind
  have hrun : Served (serve byteChars) (fun a _ => a.Spares r.allocationKey) retainedDb reclaimedDb :=
    .serve _ .start fun req heq => by cases heq
  obtain ⟨hrow, hapart⟩ := retained_withheld hs hr hbacks hfree hrun
  exact ⟨r, hr, hbacks, hfree, hrow, o, ho, hpool, hspace, hapart o ho hne hpool hspace⟩

end Ipam.Registry
