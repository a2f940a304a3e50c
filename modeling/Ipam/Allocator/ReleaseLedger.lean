import Ipam.Allocator.LedgerSpec
import Ipam.Allocator.Release

namespace Ipam.Allocator

open Allocation Database Transaction

structure Keyed (rows : List Row) : Prop where
  allocationKeys : rows.Pairwise fun r o => r.allocationKey ≠ o.allocationKey
  claimKeys : rows.Pairwise fun r o => r.claimKey ≠ none → r.claimKey ≠ o.claimKey

namespace Keyed

variable {rows : List Row} {r o : Row}

theorem eq_of_allocationKey (h : Keyed rows) (hr : r ∈ rows) (ho : o ∈ rows) (heq : r.allocationKey = o.allocationKey) :
    r = o := by
  by_contra hne
  have hsymm : Std.Symm fun r o : Row => r.allocationKey ≠ o.allocationKey := ⟨fun _ _ h => h.symm⟩
  exact h.allocationKeys.forall hr ho hne heq

theorem eq_of_claimKey (h : Keyed rows) (hr : r ∈ rows) (ho : o ∈ rows) {k : Key} (hrk : r.claimKey = some k)
    (hok : o.claimKey = some k) : r = o := by
  by_contra hne
  have hsymm : Std.Symm fun r o : Row => r.claimKey ≠ none → r.claimKey ≠ o.claimKey :=
    ⟨fun _ _ hab hb heq => hab (heq ▸ hb) heq.symm⟩
  exact h.claimKeys.forall hr ho hne (by simp [hrk]) (hrk.trans hok.symm)

theorem filter (h : Keyed rows) (p : Row → Bool) : Keyed (rows.filter p) :=
  ⟨h.allocationKeys.filter p, h.claimKeys.filter p⟩

theorem append (h : Keyed rows) {L : Ledger} (hrows : L.rows = rows) (hadm : L.Admits r) : Keyed (rows ++ [r]) := by
  subst hrows
  constructor
  · refine List.pairwise_append.mpr ⟨h.allocationKeys, List.pairwise_singleton _ _, ?_⟩
    simpa using hadm.allocationKey
  · refine List.pairwise_append.mpr ⟨h.claimKeys, List.pairwise_singleton _ _, ?_⟩
    intro o ho r' hr' hne
    rw [List.mem_singleton.mp hr']
    rcases hadm.claimKey with hnone | hfresh
    · rw [hnone]
      exact hne
    · exact hfresh o ho

theorem map (h : Keyed rows) {f : Row → Row} (hkey : ∀ r ∈ rows, (f r).allocationKey = r.allocationKey)
    (hclaim : ∀ r ∈ rows, ∀ o ∈ rows, r ≠ o → (f r).claimKey ≠ none → (f r).claimKey ≠ (f o).claimKey) :
    Keyed (rows.map f) := by
  constructor
  · refine List.pairwise_map.mpr (h.allocationKeys.imp_of_mem ?_)
    intro a b ha hb hab
    rw [hkey a ha, hkey b hb]
    exact hab
  · refine List.pairwise_map.mpr (h.allocationKeys.imp_of_mem ?_)
    intro a b ha hb hab
    exact hclaim a ha b hb fun heq => hab (by rw [heq])

end Keyed

def DeleteCond.matches : DeleteCond → Row → Bool
  | .claimKey k, r => r.claimKey = some k
  | .allocationKey k, r => r.allocationKey = k
  | .reservationsOf pool, r => r.poolKey = pool && r.purpose = .reservation

theorem mem_find?_of_unique {rows : List Row} {p : Row → Bool}
    (huniq : ∀ r ∈ rows, ∀ o ∈ rows, p r = true → p o = true → r = o) (r : Row) :
    r ∈ (rows.find? p).toList ↔ r ∈ rows ∧ p r = true := by
  rw [Option.mem_toList]
  constructor
  · intro h
    exact ⟨List.mem_of_find?_eq_some h, List.find?_some (p := p) h⟩
  · rintro ⟨hr, hp⟩
    obtain ⟨o, ho⟩ := Option.isSome_iff_exists.mp (List.find?_isSome.mpr ⟨r, hr, hp⟩)
    rw [ho, huniq o (List.mem_of_find?_eq_some ho) r hr (List.find?_some (p := p) ho) hp]

theorem mem_select {rows : List Row} (h : Keyed rows) (cond : DeleteCond) (r : Row) :
    r ∈ cond.select rows ↔ r ∈ rows ∧ DeleteCond.matches cond r = true := by
  cases cond with
  | claimKey k =>
    refine mem_find?_of_unique (p := fun r => r.claimKey = some k) ?_ r
    intro a ha b hb hpa hpb
    exact h.eq_of_claimKey ha hb (of_decide_eq_true hpa) (of_decide_eq_true hpb)
  | allocationKey k =>
    refine mem_find?_of_unique (p := fun r => r.allocationKey = k) ?_ r
    intro a ha b hb hpa hpb
    exact h.eq_of_allocationKey ha hb ((of_decide_eq_true hpa).trans (of_decide_eq_true hpb).symm)
  | reservationsOf pool => exact List.mem_filter

theorem ledger_deleteRows (gone : List Row) (s : Db) :
    (postgres.view (gone.map fun r => Effect.deleteRow r.poolKey r.allocationKey) s).ledger =
      s.ledger.drop fun r => gone.any fun o => r.poolKey = o.poolKey ∧ r.allocationKey = o.allocationKey := by
  induction gone generalizing s with
  | nil => simp [Ledger.drop, Database.view, Db.ledger]
  | cons o gone ih =>
    have hview := ih (Effect.apply (.deleteRow o.poolKey o.allocationKey) s)
    rw [ledger_apply] at hview
    refine hview.trans ?_
    simp only [Ledger.apply, Ledger.drop, Ledger.mk.injEq, and_true, true_and, List.filter_filter]
    apply List.filter_congr
    intro r _
    simp [Bool.and_comm]

theorem drop_select {L : Ledger} (h : Keyed L.rows) (cond : DeleteCond) :
    (L.drop fun r => (cond.select L.rows).any fun o => r.poolKey = o.poolKey ∧ r.allocationKey = o.allocationKey) =
      L.drop (DeleteCond.matches cond) := by
  simp only [Ledger.drop, Ledger.mk.injEq, and_true, true_and]
  apply List.filter_congr
  intro r hr
  congr 1
  rw [Bool.eq_iff_iff, List.any_eq_true]
  constructor
  · rintro ⟨o, ho, hsame⟩
    obtain ⟨homem, hmatch⟩ := (mem_select h cond o).mp ho
    have heq := h.eq_of_allocationKey hr homem (of_decide_eq_true hsame).2
    rwa [heq]
  · intro hmatch
    exact ⟨r, (mem_select h cond r).mpr ⟨hr, hmatch⟩, by simp⟩

section

variable {s : Db}

theorem sendAll_keeps {α P : Type} {π : Db → P} {f : α → Tx Unit} {as : List α}
    (h : ∀ a ∈ as, ∀ s, postgres.After s (f a) fun _ s' => π s' = π s) :
    postgres.After s (sendAll f as) fun _ s' => π s' = π s := by
  induction as generalizing s with
  | nil => exact .pure rfl
  | cons a as ih =>
    apply Database.After.bind
    refine (h a List.mem_cons_self s).mono ?_
    intro _ s₁ h₁
    exact (ih fun b hb => h b (List.mem_cons_of_mem _ hb)).mono fun _ _ h₂ => h₂.trans h₁

theorem setsFloor_ledger {k : Key} (e : Effect) (h : Effect.SetsFloor k e) (L : Ledger) : L.apply e = L := by
  obtain ⟨digest, floor, rfl⟩ := h
  rfl

theorem lowerSearchFloor_after (old : Row) :
    postgres.After s (lowerSearchFloor old) fun _ s' => s'.ledger = s.ledger := by
  exact keeps_ledger (lowerSearchFloor_emits old) setsFloor_ledger

theorem settleRelease_after {old : Row} {pool : IPPool} (h : s.ledger.objects old.poolKey = some (.pool pool.core)) :
    postgres.After s (settleRelease old pool) fun _ s' => s'.ledger = s.ledger := by
  have hparse : postgres.After s (parsePoolCIDR pool) fun _ s' => s'.ledger = s.ledger :=
    read_ledger ((Emits.ofOption _).bind fun _ => trivial)
  apply Database.After.bind
  refine hparse.mono ?_
  intro parents s₁ h₁
  apply Database.After.bind
  refine (read_ledger (consumptionAfterRelease_emits old.poolKey parents old.cidr.net)).mono ?_
  intro consumed s₂ h₂
  apply Database.After.bind
  refine (writeConsumed_after consumed).mono ?_
  intro _ s₃ h₃
  have hsame : s₃.ledger = s.ledger := h₃.trans (h₂.trans h₁)
  refine (persistPoolCapacity_after (by rw [hsame]; exact h) consumed).mono ?_
  exact fun _ _ h₄ => h₄.trans hsame

theorem publishRelease_after (old : Row) :
    postgres.After s (publishRelease old) fun _ s' => s'.ledger = s.ledger := by
  apply Database.After.step
  intro o es hexec
  obtain ⟨rfl, rfl⟩ := Prod.mk.inj (Except.ok.inj hexec)
  change postgres.After s (publishAfterLock old (s.object old.poolKey)) _
  cases hpool : asPool (s.object old.poolKey) with
  | none =>
    simp only [publishAfterLock, hpool]
    exact .pure rfl
  | some pool =>
    simp only [publishAfterLock, hpool]
    exact settleRelease_after (stored_of_asPool hpool)

theorem deleteAllocations_ledger (cond : DeleteCond) :
    postgres.After s (deleteAllocations cond) fun _ s' => s'.ledger = s.ledger.drop fun r =>
      (cond.select s.rows).any fun o => r.poolKey = o.poolKey ∧ r.allocationKey = o.allocationKey := by
  apply Database.After.step
  intro released es hexec
  obtain ⟨rfl, rfl⟩ := Prod.mk.inj (Except.ok.inj hexec)
  change postgres.After _ (sendAll lowerSearchFloor (cond.select s.rows) >>= fun _ =>
    sendAll publishRelease (cond.select s.rows)) _
  apply Database.After.bind
  refine (sendAll_keeps (π := Db.ledger) fun old _ _ => lowerSearchFloor_after old).mono ?_
  intro _ s₁ h₁
  refine (sendAll_keeps (π := Db.ledger) fun old _ _ => publishRelease_after old).mono ?_
  exact fun _ s₂ h₂ => h₂.trans (h₁.trans (ledger_deleteRows (cond.select s.rows) s))

theorem deleteAllocations_after (h : Keyed s.rows) (cond : DeleteCond) :
    postgres.After s (deleteAllocations cond) fun _ s' => s'.ledger = s.ledger.drop (DeleteCond.matches cond) :=
  (deleteAllocations_ledger cond).mono fun _ _ hs' => hs'.trans (drop_select (L := s.ledger) h cond)

def Row.retained (claim : Key) (r : Row) : Bool :=
  r.claimKey = some claim && r.reclaimPolicy = .retain

def Ledger.retain (L : Ledger) (claim : Key) : Ledger :=
  { L with rows := L.rows.map fun r => if Row.retained claim r then { r with claimKey := none } else r }

theorem ledger_clearKeys (keys : List Key) (s : Db) :
    (postgres.view (keys.map fun k => Effect.setClaimKey k none) s).ledger =
      { s.ledger with
        rows := s.rows.map fun r => if r.allocationKey ∈ keys then { r with claimKey := none } else r } := by
  induction keys generalizing s with
  | nil => simp [Database.view, Db.ledger]
  | cons k keys ih =>
    refine (ih (Effect.apply (.setClaimKey k none) s)).trans ?_
    have hrest : (Effect.apply (.setClaimKey k none) s).ledger = s.ledger.setClaim k none := ledger_apply _ s
    rw [hrest]
    simp only [Effect.apply, Ledger.setClaim, List.map_map, Ledger.mk.injEq, and_true, true_and]
    apply List.map_congr_left
    intro r _
    by_cases hk : r.allocationKey = k
    · simp [hk]
    · simp [hk]

theorem retain_eq (h : Keyed s.rows) (claim : Key) :
    ({ s.ledger with
        rows := s.rows.map fun r =>
          if r.allocationKey ∈ (s.rows.filter (Row.retained claim)).map Row.allocationKey then
            { r with claimKey := none }
          else r } : Ledger) = Ledger.retain s.ledger claim := by
  simp only [Ledger.retain, Ledger.mk.injEq, and_true, true_and]
  apply List.map_congr_left
  intro r hr
  have hmem : r.allocationKey ∈ (s.rows.filter (Row.retained claim)).map Row.allocationKey ↔
      Row.retained claim r = true := by
    rw [List.mem_map]
    constructor
    · rintro ⟨o, ho, heq⟩
      obtain ⟨homem, hret⟩ := List.mem_filter.mp ho
      rwa [← h.eq_of_allocationKey homem hr heq]
    · intro hret
      exact ⟨r, List.mem_filter.mpr ⟨hr, hret⟩, rfl⟩
  simp only [hmem]

theorem Keyed.retain {L : Ledger} (h : Keyed L.rows) (claim : Key) : Keyed (Ledger.retain L claim).rows := by
  refine h.map ?_ ?_
  · intro r _
    split <;> rfl
  · intro r hr o ho hne hsome
    split at hsome
    · exact absurd rfl hsome
    · rename_i hkept
      rw [if_neg hkept]
      obtain ⟨k, hk⟩ := Option.ne_none_iff_exists'.mp hsome
      split
      · exact hsome
      · intro heq
        exact hne (h.eq_of_claimKey hr ho hk (heq.symm.trans hk))

theorem release_after (h : Keyed s.rows) (claim : Key) :
    postgres.After s (release claim) fun retained s' =>
      retained = (s.rows.filter (Row.retained claim)).map Row.allocationKey ∧
        s'.ledger = (Ledger.retain s.ledger claim).drop fun r => r.claimKey = some claim := by
  apply Database.After.step
  intro retained es hexec
  obtain ⟨rfl, rfl⟩ := Prod.mk.inj (Except.ok.inj hexec)
  have hledger := (ledger_clearKeys ((s.rows.filter (Row.retained claim)).map Row.allocationKey) s).trans
    (retain_eq h claim)
  have hkeyed := h.retain (L := s.ledger) claim
  rw [← hledger] at hkeyed ⊢
  change postgres.After (postgres.view (((s.rows.filter (Row.retained claim)).map Row.allocationKey).map
    fun k => Effect.setClaimKey k none) s) (deleteAllocations (.claimKey claim) >>= fun _ => Prog.pure _) _
  apply Database.After.bind
  refine (deleteAllocations_after hkeyed (.claimKey claim)).mono ?_
  intro _ s' hs'
  exact .pure ⟨rfl, hs'⟩

theorem bindScopeRange_after (pool claim : Key) :
    postgres.After s (bindScopeRange pool claim) fun cidr s' =>
      (∃ r ∈ s.rows, r.allocationKey = pool ∧ r.purpose = .poolCarve ∧ r.claimKey = some pool ∧ cidr = r.cidr) ∧
        (∀ o ∈ s.rows, o.claimKey = some claim → o.allocationKey = pool) ∧
          s'.ledger = s.ledger.setClaim pool (some claim) := by
  apply Database.After.step
  intro bound es hexec
  have h : exec (.bindScopeRange pool claim) s = .ok (bound, es) := hexec
  simp only [exec] at h
  split at h
  · cases h
    change postgres.After s (Prog.call (.carveOf pool) >>= _) _
    apply Database.After.step
    intro carve es _
    cases carve <;> exact .throw
  · rename_i r hfind
    split at h
    · cases h
    · rename_i hfree
      cases h
      refine .pure ⟨⟨r, List.mem_of_find?_eq_some hfind, ?_⟩, ?_, ledger_apply (.setClaimKey pool (some claim)) s⟩
      · have hr := List.find?_some hfind
        simp only [Bool.and_eq_true, decide_eq_true_eq] at hr
        exact ⟨hr.1.1, hr.1.2, hr.2, rfl⟩
      · intro o ho hclaim
        by_contra hne
        exact hfree (List.any_eq_true.mpr ⟨o, ho, by simp [hclaim, hne]⟩)

/-- The keys of the tables: a row is in a stored pool, which has had a range since the row was written. -/
structure Consistent (L : Ledger) : Prop where
  keyed : Keyed L.rows
  pools : ∀ r ∈ L.rows, ∃ pool range, L.objects r.poolKey = some (.pool pool) ∧ IPPool.range pool = some range
  identities : ∀ i ∈ L.identities, ∃ pool, L.objects i.poolKey = some (.pool pool)

theorem measure_unreserved (parents existing : List IPNet) :
    measure parents existing ⟨0, 0, 0⟩ = .ok (measureViews (viewPool parents existing)) := rfl

theorem seedConsumption_succeeds (k : Key) (parents : List IPNet) : postgres.Succeeds s (seedConsumption k parents) := by
  refine .read rfl ?_
  simp only [measure_unreserved]
  exact .pure _

theorem consumptionAfterRelease_succeeds (k : Key) (parents : List IPNet) (b : Cidr) :
    postgres.Succeeds s (consumptionAfterRelease k parents b.net) := by
  have hload : loadOverlapping k b.net = send (.loadOverlapping k b) := by
    simp only [loadOverlapping, b.string_net]
    rfl
  simp only [consumptionAfterRelease, hload]
  refine .read rfl (.read rfl ?_)
  cases hc : s.consumed k with
  | none =>
    exact seedConsumption_succeeds k parents
  | some base =>
    exact .pure _

theorem settleRelease_succeeds {old : Row} {pool : IPPool} {range : IPNet}
    (hstored : s.ledger.objects old.poolKey = some (.pool pool.core)) (hrange : IPPool.range pool = some range) :
    postgres.Succeeds s (settleRelease old pool) := by
  have hparse : parsePoolCIDR pool = .pure [range] := by
    simp only [parsePoolCIDR, hrange]
    rfl
  simp only [settleRelease, hparse]
  refine Database.Succeeds.bind (.pure [range]) (.pure ?_)
  refine Database.Succeeds.bind (consumptionAfterRelease_succeeds old.poolKey [range] old.cidr) ?_
  refine (read_ledger (consumptionAfterRelease_emits old.poolKey [range] old.cidr.net)).mono ?_
  intro consumed s₁ h₁
  have hsome : ∀ s' : Db, s'.ledger = s.ledger → (s'.object old.poolKey).isNone = false := by
    intro s' hs'
    cases ho : s'.object old.poolKey with
    | some o => rfl
    | none =>
      have hnone := ledger_object_none.mpr ho
      rw [hs', hstored] at hnone
      cases hnone
  have hwrite : exec (.writeConsumed old.poolKey consumed) s₁ = .ok ((), [.putConsumed old.poolKey consumed]) := by
    simp [exec, hsome s₁ h₁]
  refine Database.Succeeds.bind (.call hwrite) ?_
  refine (writeConsumed_after consumed).mono ?_
  intro _ s₂ h₂
  have hupdate : exec (.updateObject old.poolKey (.pool (setPoolCapacityStatus pool [range] consumed))) s₂ =
      .ok ((), [.putObject old.poolKey (.pool (setPoolCapacityStatus pool [range] consumed))]) := by
    simp [exec, hsome s₂ (h₂.trans h₁)]
  exact .call hupdate

theorem publishRelease_succeeds {old : Row}
    (h : ∀ pool, s.ledger.objects old.poolKey = some (.pool pool) → IPPool.range pool ≠ none) :
    postgres.Succeeds s (publishRelease old) := by
  refine .read rfl ?_
  change postgres.Succeeds s (publishAfterLock old (s.object old.poolKey))
  cases hpool : asPool (s.object old.poolKey) with
  | none =>
    simp only [publishAfterLock, hpool]
    exact .pure _
  | some pool =>
    have hstored := stored_of_asPool hpool
    obtain ⟨range, hrange⟩ := Option.ne_none_iff_exists'.mp (h pool.core hstored)
    simp only [publishAfterLock, hpool]
    exact settleRelease_succeeds hstored hrange

theorem sendAll_succeeds {α : Type} {f : α → Tx Unit} {as : List α}
    (hkeep : ∀ a s, postgres.After s (f a) fun _ s' => s'.ledger = s.ledger)
    (h : ∀ a ∈ as, ∀ s' : Db, s'.ledger = s.ledger → postgres.Succeeds s' (f a)) :
    postgres.Succeeds s (sendAll f as) := by
  induction as generalizing s with
  | nil => exact .pure _
  | cons a as ih =>
    refine Database.Succeeds.bind (h a List.mem_cons_self s rfl) ?_
    refine (hkeep a s).mono ?_
    intro _ s₁ h₁
    exact ih fun b hb s' hs' => h b (List.mem_cons_of_mem _ hb) s' (hs'.trans h₁)

theorem lowerFloor_succeeds (pool : Key) (digest : String) (ip : IP) :
    postgres.Succeeds s (send (.lowerFloor pool digest ip)) := by
  cases hf : floorAt (s.poolFloors pool) digest with
  | none =>
    have hexec : exec (.lowerFloor pool digest ip) s = .ok ((), []) := by simp [exec, hf]
    exact .call hexec
  | some floor =>
    have hexec : exec (.lowerFloor pool digest ip) s = .ok ((), [.setFloor pool digest (least floor ip)]) := by
      simp [exec, hf]
    exact .call hexec

theorem lowerSearchFloor_succeeds (old : Row) : postgres.Succeeds s (lowerSearchFloor old) := by
  refine .read rfl ?_
  refine sendAll_succeeds (fun d s => ?_) fun d _ s' _ => lowerFloor_succeeds old.poolKey d old.cidr.ip
  exact keeps_ledger (lowerFloor_emits old.poolKey d old.cidr.ip) setsFloor_ledger

theorem deleteAllocations_succeeds (h : Consistent s.ledger) (cond : DeleteCond) :
    postgres.Succeeds s (deleteAllocations cond) := by
  refine .step rfl ?_
  have hdrop := (ledger_deleteRows (cond.select s.rows) s).trans (drop_select (L := s.ledger) h.keyed cond)
  change postgres.Succeeds _ (sendAll lowerSearchFloor (cond.select s.rows) >>= fun _ =>
    sendAll publishRelease (cond.select s.rows))
  refine Database.Succeeds.bind ?_ ?_
  · exact sendAll_succeeds (fun old s => lowerSearchFloor_after old) fun old _ s' _ => lowerSearchFloor_succeeds old
  refine (sendAll_keeps (π := Db.ledger) fun old _ _ => lowerSearchFloor_after old).mono ?_
  intro _ s₁ h₁
  refine sendAll_succeeds (fun old s => publishRelease_after old) fun old hold s' hs' => publishRelease_succeeds ?_
  intro pool hpool
  rw [hs', h₁, hdrop] at hpool
  obtain ⟨q, range, hstored, hrange⟩ := h.pools old ((mem_select h.keyed cond old).mp hold).1
  cases hstored.symm.trans hpool
  simp [hrange]

theorem deleteObject_succeeds {k : Key} (h : ∀ r ∈ s.rows, r.poolKey ≠ k) :
    postgres.Succeeds s (send (.deleteObject k)) := by
  have hempty : (s.rows.any fun r => r.poolKey = k) = false :=
    List.any_eq_false.mpr fun r hr hk => h r hr (of_decide_eq_true hk)
  have hexec : exec (.deleteObject k) s = .ok ((), [.removeObject k]) := by
    simp only [exec, hempty]
    rfl
  exact .call hexec

theorem Consistent.drop {L : Ledger} (h : Consistent L) (gone : Row → Bool) : Consistent (L.drop gone) :=
  ⟨h.keyed.filter _, fun r hr => h.pools r (List.mem_filter.mp hr).1, h.identities⟩

end

end Ipam.Allocator
