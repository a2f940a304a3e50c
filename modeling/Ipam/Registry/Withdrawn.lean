import Ipam.Registry.Carves
import Ipam.Registry.Conformance

namespace Ipam.Registry

open Allocation Allocator Cascade Database Transaction

def ApartFor (P : Row → Row → Prop) (L : Ledger) : Prop :=
  ∀ r ∈ L.rows, ∀ o ∈ L.rows, r.poolKey = o.poolKey → r.allocationKey ≠ o.allocationKey → P r o →
    r.cidr.overlaps o.cidr = false

structure Unclaiming (P : Row → Row → Prop) : Prop where
  symm : ∀ {r o}, P r o → P o r
  claim : ∀ {r r' o o'}, r.unclaimed = r'.unclaimed → o.unclaimed = o'.unclaimed → P r o → P r' o'

section

variable {P : Row → Row → Prop} {hash : Scope.Text → String} {ed digest : String} {L L' mid carved : Ledger} {k : Key}
  {n : ℤ} {row : Cidr → Row} {pool : IPPool} {block : IPNet} {b : Cidr}

theorem Taken.apart (h : Taken ed k digest n row L mid carved pool block b) (hr : Ranged L) {o : Row}
    (ho : o ∈ mid.rows) (hk : o.poolKey = k) (hblocks : Row.blocks digest o = true) : o.cidr.overlaps b = false := by
  obtain ⟨p, hat, hm⟩ := hr.pool_at h
  apply (h.found p hat).apart h.text hm
  exact List.mem_map.mpr ⟨o.unclaimed, List.mem_filter.mpr ⟨mid.mem_poolRows ho hk, hblocks⟩, rfl⟩

namespace ApartFor

theorem shrinks (h : ApartFor P L) (hP : Unclaiming P) (hs : Shrinks L L') : ApartFor P L' := by
  intro r' hr' o' ho' hpool hkey hrelated
  obtain ⟨r, hr, heqr⟩ := hs.rows r' hr'
  obtain ⟨o, ho, heqo⟩ := hs.rows o' ho'
  have hpr : r.unclaimed.poolKey = r'.unclaimed.poolKey := congrArg Row.poolKey heqr
  have hpo : o.unclaimed.poolKey = o'.unclaimed.poolKey := congrArg Row.poolKey heqo
  have hkr : r.unclaimed.allocationKey = r'.unclaimed.allocationKey := congrArg Row.allocationKey heqr
  have hko : o.unclaimed.allocationKey = o'.unclaimed.allocationKey := congrArg Row.allocationKey heqo
  have hcr : r.unclaimed.cidr = r'.unclaimed.cidr := congrArg Row.cidr heqr
  have hco : o.unclaimed.cidr = o'.unclaimed.cidr := congrArg Row.cidr heqo
  simp only [Row.unclaimed] at hpr hpo hkr hko hcr hco
  rw [← hcr, ← hco]
  apply h r hr o ho
  · rw [hpr, hpo, hpool]
  · rw [hkr, hko]
    exact hkey
  · exact hP.claim heqr.symm heqo.symm hrelated

theorem add (h : ApartFor P L) (hP : Unclaiming P) {r : Row}
    (hr : ∀ o ∈ L.rows, o.poolKey = r.poolKey → P o r → o.cidr.overlaps r.cidr = false) : ApartFor P (L.add r) := by
  intro x hx y hy hpool hkey hrelated
  cases List.mem_append.mp hx with
  | inl hold =>
    cases List.mem_append.mp hy with
    | inl hold' => exact h x hold y hold' hpool hkey hrelated
    | inr hnew' =>
      obtain rfl := List.mem_singleton.mp hnew'
      exact hr x hold hpool hrelated
  | inr hnew =>
    obtain rfl := List.mem_singleton.mp hnew
    cases List.mem_append.mp hy with
    | inl hold' =>
      rw [Cidr.overlaps_comm]
      exact hr y hold' hpool.symm (hP.symm hrelated)
    | inr hnew' => exact absurd (congrArg Row.allocationKey (List.mem_singleton.mp hnew')).symm hkey

theorem reserves {parents : List IPNet} (h : ApartFor P L) (hP : Unclaiming P) (hres : Reserves ed k parents L L') :
    ApartFor P L' := by
  induction hres with
  | refl => exact h
  | tail _ hlast ih =>
    cases hlast with
    | row _ hapart _ => exact ih.add hP fun o ho hk _ => hapart o ho hk

theorem taken (h : ApartFor P L) (hP : Unclaiming P) (hr : Ranged L)
    (htaken : Taken ed k digest n row L mid carved pool block b) (hrow : (row b).poolKey = k ∧ (row b).cidr = b)
    (hsees : ∀ o ∈ L.rows, o.poolKey = k → P o (row b) → Row.blocks digest o = true) : ApartFor P carved := by
  obtain ⟨range, -, hmat⟩ := htaken.reserved
  rw [htaken.ledger]
  refine (h.reserves hP hmat.reserves).add hP ?_
  intro o ho hk hrelated
  rw [hrow.1] at hk
  rw [hrow.2]
  refine Taken.apart htaken hr ho hk ?_
  cases hmat.reserves.mem ho with
  | inl hold => exact hsees o hold hk hrelated
  | inr hnew =>
    rw [hnew]
    simp [Row.blocks, reservationRow]

theorem provisioned {level : CascadeLevel} {source : Key} (h : ApartFor P L) (hP : Unclaiming P) (hr : Ranged L)
    (hprov : Provisioned ed level source n L mid carved L' pool block b) : ApartFor P L' := by
  have hnamed : ApartFor P (L.name (level.identity level.poolKey)) := h
  have hranged : Ranged (L.name (level.identity level.poolKey)) := ⟨hr.derived, hr.unmapped, hr.rows⟩
  have hcarved : ApartFor P carved := hnamed.taken hP hranged hprov.taken ⟨rfl, rfl⟩ fun o _ _ _ => rfl
  have hput : ApartFor P (carved.put level.poolKey (.pool (newProvisionedPool level (keyName source) n block).core)) :=
    hcarved
  exact hput.reserves hP hprov.materialised.reserves

end ApartFor

theorem Provisioned.classes {level : CascadeLevel} {source : Key}
    (h : Provisioned ed level source n L mid carved L' pool block b) : KeepsClasses L' L := by
  intro k c hc
  rw [h.objects.1] at hc
  by_cases hk : k = level.poolKey
  · subst hk
    simp at hc
  · rwa [Function.update_of_ne hk] at hc

theorem Provisioned.draws {level : CascadeLevel} {source : Key}
    (h : Provisioned ed level source n L mid carved L' pool block b) {consumer : String} {claimScope : Scope}
    {c : ResolvedClass} {k : Key} (hdraws : Draws hash L' consumer claimScope c k) :
    Draws hash L consumer claimScope c k ∨ k = level.poolKey := by
  by_cases hk : k = level.poolKey
  · exact .inr hk
  left
  cases hdraws with
  | offered hroot hoffers =>
    refine .offered hroot ⟨?_, hoffers.project, hoffers.className, hoffers.family, hoffers.serves⟩
    have hstored := hoffers.stored
    rwa [h.objects.1, Function.update_of_ne hk] at hstored
  | @provisioned upper hparent hplan hdefined hidentity =>
    rw [h.objects.2.1] at hidentity
    cases List.mem_append.mp hidentity with
    | inl hold =>
      have hclasses := Provisioned.classes h
      exact .provisioned (hparent.mono hclasses) hplan (hdefined.mono hclasses) hold
    | inr hnew => exact absurd (congrArg Identity.poolKey (List.mem_singleton.mp hnew)) hk

end

def Row.Withdrawn (r : Row) : Prop :=
  r.purpose = .reservation ∨ Row.OfPool r

def Withdraws (r o : Row) : Prop :=
  Row.Withdrawn r ∨ Row.Withdrawn o

/-- A pool gives a block to an author's child pool only while all its claims are in the space without roles, and to a
claim of another space only while no author's child pool has a block of it. -/
def Action.KeepsWithdrawn (hash : Scope.Text → String) (s : Db) (L : Ledger) : Action → Prop
  | .createPool req => ∀ parent, req.pool.parentPoolRef = some parent → ∀ r ∈ L.rows,
    r.poolKey = poolStorageKey req.project parent → r.purpose = .claim → r.scopeDigest = emptySpace hash
  | .createClaim req => ∀ class_ space k, req.Names s class_ →
    projectAddressSpaceDigest hash req.tenant req.claim.scope class_.spec.uniqueWithin "uniqueWithin" = .ok space →
    searchDigest (emptySpace hash) space.2 ≠ emptySpace hash →
    Draws hash L req.tenant req.claim.scope class_ k → ∀ r ∈ L.rows, r.poolKey = k → Row.OfPool r → r.purpose = .poolCarve
  | _ => True

section

variable {hash : Scope.Text → String} {L L' : Ledger} {a : Action} {s : Db} {req : ClaimRequest}

theorem withdraws_unclaiming : Unclaiming Withdraws := by
  have hwithdrawn : ∀ {r r' : Row}, r.unclaimed = r'.unclaimed → Row.Withdrawn r → Row.Withdrawn r' := by
    intro r r' heq hr
    have hpurpose : r.unclaimed.purpose = r'.unclaimed.purpose := congrArg Row.purpose heq
    have hkey : r.unclaimed.allocationKey = r'.unclaimed.allocationKey := congrArg Row.allocationKey heq
    simp only [Row.unclaimed] at hpurpose hkey
    simpa only [Row.Withdrawn, Row.OfPool, hpurpose, hkey] using hr
  exact ⟨Or.symm, fun hr ho => Or.imp (hwithdrawn hr) (hwithdrawn ho)⟩

theorem Growth.withdrawn (h : Growth hash L a L') (ha : ∀ req, a ≠ .createClaim req) (hr : Ranged L)
    (hL : ApartFor Withdraws L) (hcond : a.KeepsWithdrawn hash s L) : ApartFor Withdraws L' := by
  cases h with
  | nothing hs => exact hL.shrinks withdraws_unclaiming hs
  | class_ _ _ _ hledger =>
    rw [hledger]
    exact hL
  | pool _ _ _ hledger =>
    rw [hledger]
    exact hL
  | @child req parent mid carved pool block b haction href _ htaken _ hledger =>
    subst haction
    have hcarved : ApartFor Withdraws carved := by
      refine hL.taken withdraws_unclaiming hr htaken (row_of_request _ _ b) ?_
      intro o ho hk _
      cases hpurpose : o.purpose with
      | claim => simp [Row.blocks, hcond parent href o ho hk hpurpose]
      | poolCarve => simp [Row.blocks, hpurpose]
      | reservation => simp [Row.blocks, hpurpose]
    rw [hledger]
    exact hcarved
  | provision haction _ _ _ _ => exact absurd haction (ha _)
  | block haction _ _ _ _ _ _ => exact absurd haction (ha _)

theorem Settles.withdrawn (h : Settles hash req s L L') (hr : Ranged L) (hs : Shaped (emptySpace hash) L)
    (hL : ApartFor Withdraws L) (hcond : (Action.createClaim req).KeepsWithdrawn hash s L) : ApartFor Withdraws L' := by
  cases h with
  | nothing => exact hL
  | range htarget h =>
    cases h with
    | provision _ _ _ hprov => exact hL.provisioned withdraws_unclaiming hr hprov
    | bindBlock hblock _ _ _ _ _ _ _ _ =>
      rw [htarget] at hblock
      cases hblock
    | holdRange _ _ _ _ _ _ _ _ _ _ =>
      exact hL.shrinks withdraws_unclaiming (((Shrinks.refl L).setClaim _).put_bound rfl)
  | @block class_ poolKey n space mid carved pool block b hnames _ _ _ hdraws _ hspace htaken _ _ =>
    have hcarved : ApartFor Withdraws carved := by
      refine hL.taken withdraws_unclaiming hr htaken (row_of_request _ _ b) ?_
      intro o ho hk hrelated
      have hwithdrawn : Row.Withdrawn o := by
        refine hrelated.resolve_right ?_
        rintro (hpurpose | hkey)
        · cases hpurpose
        · cases hkey
      cases hs.rows o ho with
      | reservation heq =>
        rw [heq]
        simp [Row.blocks, reservationRow]
      | carve hpurpose _ _ _ _ => simp [Row.blocks, hpurpose]
      | child hpurpose hkey _ _ hdigest _ =>
        by_cases hempty : searchDigest (emptySpace hash) space.2 = emptySpace hash
        · simp [Row.blocks, hempty, hdigest]
        · have hcarve := hcond class_ space poolKey hnames hspace hempty hdraws o ho hk hkey
          rw [hpurpose] at hcarve
          cases hcarve
      | block hpurpose hkey _ =>
        cases hwithdrawn with
        | inl hreservation =>
          rw [hpurpose] at hreservation
          cases hreservation
        | inr hof =>
          rw [Row.OfPool, hkey] at hof
          cases hof
    exact hcarved

theorem Provides.keepsWithdrawn (h : Provides hash req L L') (hc : Consistent L)
    (hcond : (Action.createClaim req).KeepsWithdrawn hash s L) : (Action.createClaim req).KeepsWithdrawn hash s L' := by
  obtain ⟨level, source, n, mid, carved, pool, block, b, -, -, -, hprov⟩ := h
  intro class_ space k hnames hspace hne hdraws r hr hk hof
  obtain hold | rfl := (Provisioned.ofPool hprov hof).mp hr
  · cases Provisioned.draws hprov hdraws with
    | inl hdraws => exact hcond class_ space k hnames hspace hne hdraws r hold hk hof
    | inr hnew =>
      obtain ⟨pool', range', hstored, -⟩ := hc.pools r hold
      rw [hk, hnew, hprov.objects.2.2] at hstored
      cases hstored
  · rfl

theorem Change.keepsWithdrawn (h : Change hash L a L') (ha : ∀ req, a ≠ .createClaim req)
    (hcond : a.KeepsWithdrawn hash s L) : a.KeepsWithdrawn hash s L' := by
  cases h with
  | createRoot hroot _ _ _ =>
    intro parent hparent
    rw [hroot] at hparent
    cases hparent
  | @authorChild req parent mid carved pool block b hchild _ htaken _ =>
    intro parent' hparent' r hr hk hpurpose
    obtain hold | hnew | hnew := Taken.mem htaken hr
    · exact hcond parent' hparent' r hold hk hpurpose
    · rw [hnew] at hpurpose
      cases hpurpose
    · rw [hnew]
      rfl
  | provision _ _ _ _ => exact absurd rfl (ha _)
  | bindBlock _ _ _ _ _ _ _ _ _ => exact absurd rfl (ha _)
  | holdRange _ _ _ _ _ _ _ _ _ _ => exact absurd rfl (ha _)
  | _ => trivial

end

abbrev WithdrawnRun (hash : Scope.Text → String) : Db → Prop :=
  Served (serve hash) (fun a s => a.Unmapped ∧ a.KeepsWithdrawn hash s s.ledger) Db.empty

section

variable {hash : Scope.Text → String} {s : Db}

theorem served_withdrawn (hs : WithdrawnRun hash s) : Consistent s.ledger ∧ ApartFor Withdraws s.ledger := by
  obtain ⟨-, hc, -, -, hapart⟩ := @served_settled hash s
    (fun L => Shaped (emptySpace hash) L ∧ Ranged L ∧ ApartFor Withdraws L)
    (fun a s L => a.Unmapped ∧ a.KeepsWithdrawn hash s L)
    ⟨shaped_empty _, ranged_empty, by simp [ApartFor, Db.ledger, Db.empty]⟩
    (fun ha hc ⟨hshaped, hr, hL⟩ hcond h => ⟨⟨h.shaped hc hshaped, h.growth.ranged hc hr hcond.1,
      h.growth.withdrawn ha hr hL hcond.2⟩, hcond.1, h.keepsWithdrawn ha hcond.2⟩)
    (fun hc ⟨hshaped, hr, hL⟩ hcond h => by
      have hchange := h.change
      refine ⟨⟨hchange.shaped hc hshaped, hchange.growth.ranged hc hr hcond.1, ?_⟩, hcond.1, ?_⟩
      · obtain ⟨level, source, n, mid, carved, pool, block, b, -, -, -, hprov⟩ := h
        exact hL.provisioned withdraws_unclaiming hr hprov
      · exact h.keepsWithdrawn hc hcond.2)
    (fun hc ⟨hshaped, hr, hL⟩ hcond h => by
      obtain ⟨-, hi, -⟩ := @changes_inv hash (fun L => Shaped (emptySpace hash) L ∧ Ranged L) (fun a _ => a.Unmapped)
        (fun hc hi ha h => ⟨⟨h.shaped hc hi.1, h.growth.ranged hc hi.2 ha⟩, ha⟩) _ _ _ hc ⟨hshaped, hr⟩ hcond.1 h.changes
      exact ⟨hi.1, hi.2, h.withdrawn hr hshaped hL hcond.2⟩)
    hs
  exact ⟨hc, hapart⟩

theorem withdrawn_apart (hs : WithdrawnRun hash s) :
    ∀ r ∈ s.rows, r.purpose = .reservation ∨ Key.resource r.allocationKey = some .ippools →
      ∀ o ∈ s.rows, o ≠ r → o.poolKey = r.poolKey → r.cidr.overlaps o.cidr = false := by
  obtain ⟨hc, hapart⟩ := served_withdrawn hs
  intro r hr hwithdrawn o ho hne hpool
  apply hapart r hr o ho hpool.symm
  · exact fun heq => hne (hc.keyed.eq_of_allocationKey ho hr heq.symm)
  · exact .inl hwithdrawn

end

def halvedOffice : Db :=
  serve byteChars (.createPool (childRequest "west" "office" 25)) carvedOffice

theorem servedOffice_unmapped : (Action.createPool (rootRequest "office" officePool)).Unmapped := by
  intro cidr hcidr
  obtain rfl : officePool.net = cidr := Option.some.inj hcidr
  exact ⟨officePool, officePool.string_net, by decide⟩

theorem halvedOffice_run : WithdrawnRun byteChars halvedOffice := by
  have hempty : ∀ s : Db, (∀ r ∈ s.rows, r.purpose = .claim → r.scopeDigest = emptySpace byteChars) →
      ∀ name, (Action.createPool (childRequest name "office" 25)).Unmapped ∧
        (Action.createPool (childRequest name "office" 25)).KeepsWithdrawn byteChars s s.ledger := by
    intro s hs name
    refine ⟨?_, fun parent _ r hr _ hpurpose => hs r hr hpurpose⟩
    intro cidr hcidr
    cases hcidr
  refine .serve _ (.serve _ (.serve _ .start ⟨servedOffice_unmapped, ?_⟩) (hempty _ ?_ _)) (hempty _ ?_ _)
  · intro parent hparent
    cases hparent
  · decide +kernel
  · decide +kernel

theorem withdrawn_apart_halved :
    WithdrawnRun byteChars halvedOffice ∧ ∃ east ∈ halvedOffice.rows, ∃ west ∈ halvedOffice.rows,
      east.allocationKey = poolStorageKey "infra" "east" ∧ west.allocationKey = poolStorageKey "infra" "west" ∧
        east.cidr.overlaps west.cidr = false := by
  have hrows : ∃ east ∈ halvedOffice.rows, ∃ west ∈ halvedOffice.rows, west ≠ east ∧ west.poolKey = east.poolKey ∧
      east.allocationKey = poolStorageKey "infra" "east" ∧ west.allocationKey = poolStorageKey "infra" "west" := by
    decide +kernel
  obtain ⟨east, heast, west, hwest, hne, hpool, hkey, hkey'⟩ := hrows
  have hof : Key.resource east.allocationKey = some .ippools := by
    rw [hkey]
    rfl
  exact ⟨halvedOffice_run, east, heast, west, hwest, hkey, hkey',
    withdrawn_apart halvedOffice_run east heast (.inr hof) west hwest hne hpool⟩

def tenantsRequest : ClassRequest :=
  { hostsClassRequest with class_ := { hostsClass with uniqueWithin := ["network"] } }

def blueRequest : ClaimRequest :=
  { hostsRequest none with
    claim := { hostsClaim none with scope := [("network", ⟨"net", "Network", "blue"⟩)] } }

def sharedOffice : Db :=
  serve byteChars (.createPool (childRequest "east" "office" 25)) (serve byteChars (.createClaim blueRequest)
    (serve byteChars (.createPool (hostsPoolRequest 0)) (serve byteChars (.createClass tenantsRequest) Db.empty)))

theorem withdrawn_shared :
    Served (serve byteChars) (fun _ _ => True) Db.empty sharedOffice ∧ ∃ east ∈ sharedOffice.rows,
      ∃ web ∈ sharedOffice.rows, east.allocationKey = poolStorageKey "infra" "east" ∧
        web.allocationKey = blueRequest.allocationKey byteChars ∧ web.poolKey = east.poolKey ∧
        east.cidr.overlaps web.cidr = true :=
  ⟨.serve _ (.serve _ (.serve _ (.serve _ .start trivial) trivial) trivial) trivial, by decide +kernel⟩

end Ipam.Registry
