import Ipam.Allocator.SerialHistory
import Ipam.Registry.Ranges

namespace Ipam.Registry

open Allocation Allocator Cascade Database Transaction

structure Tended (k : Key) (x : PoolState) : Prop where
  blank : x.pool = none → x = ⟨none, [], [], none⟩
  floored : ∀ pool p, x.pool = some pool → pool.allocatedCIDR = some p → ¬ p.MeetsMapped ∧ Floored k p x

def Upkept (s : Db) : Prop :=
  ∀ k, Tended k (s.poolState k)

section

variable {k : Key} {x : PoolState} {pool : IPPool}

theorem Tended.stored (hunmapped : ∀ p, pool.allocatedCIDR = some p → ¬ p.MeetsMapped) :
    Tended k ⟨some pool, [], [], none⟩ := by
  refine ⟨fun h => (nomatch h), ?_⟩
  intro pool' p hpool hp
  obtain rfl : pool = pool' := Option.some.inj hpool
  have hfresh : Fresh k p { Db.empty with objects := [(k, .pool pool)] } := by
    refine ⟨⟨pool, ?_, hp⟩, rfl, rfl, rfl⟩
    simp [Db.pool, Db.object]
  have hstate : Db.poolState k { Db.empty with objects := [(k, .pool pool)] } = ⟨some pool, [], [], none⟩ := by
    simp [Db.poolState, Db.pool, Db.object, Db.poolRows, Db.poolFloors, Db.consumed, Db.empty]
  exact ⟨hunmapped p hp, hstate ▸ hfresh.floored⟩

theorem Tended.replaced (h : Tended k x) {old : IPPool} (hold : x.pool = some old)
    (hcidr : pool.allocatedCIDR = old.allocatedCIDR) : Tended k { x with pool := some pool } := by
  refine ⟨fun h => (nomatch h), ?_⟩
  intro pool' p hpool hp
  obtain rfl : pool = pool' := Option.some.inj hpool
  obtain ⟨hm, hcounted, hfloors⟩ := h.floored old p hold (hcidr ▸ hp)
  exact ⟨hm, ⟨⟨⟨pool, rfl, hp⟩, hcounted.based.rows⟩, hcounted.keys, hcounted.apart, hcounted.recorded, hcounted.total⟩,
    hfloors.named, hfloors.plain, hfloors.below⟩

end

section

variable {s s' : Db} {k : Key}

theorem Upkept.of_poolState (h : Upkept s) (hstate : ∀ k, s'.poolState k = s.poolState k) : Upkept s' :=
  fun k => hstate k ▸ h k

theorem Upkept.rows_ne (h : Upkept s) (hk : (s.poolState k).pool = none) : ∀ r ∈ s.rows, r.poolKey ≠ k := by
  intro r hr heq
  have hmem : r.unclaimed ∈ (s.poolState k).rows :=
    List.mem_map.mpr ⟨r, List.mem_filter.mpr ⟨hr, decide_eq_true heq⟩, rfl⟩
  rw [(h k).blank hk] at hmem
  simp at hmem

theorem Upkept.put_other (h : Upkept s) {o : Object} (hk : (s.poolState k).pool = none) (ho : o.asPool = none) :
    Upkept (Effect.apply (.putObject k o) s) := by
  apply h.of_poolState
  intro k'
  rw [poolState_apply]
  simp only [PoolState.apply]
  split
  · rename_i heq
    rw [← heq, ho, ← hk]
  · rfl

theorem Upkept.put_pool (h : Upkept s) {pool : IPPool} (hk : (s.poolState k).pool = none)
    (hunmapped : ∀ p, pool.allocatedCIDR = some p → ¬ p.MeetsMapped) :
    Upkept (Effect.apply (.putObject k (.pool pool)) s) := by
  intro k'
  rw [poolState_apply]
  simp only [PoolState.apply]
  split
  · rename_i heq
    rw [← heq, (h k).blank hk]
    exact .stored hunmapped
  · exact h k'

theorem Upkept.replace_pool (h : Upkept s) {pool old : IPPool} (hk : (s.poolState k).pool = some old)
    (hcidr : pool.allocatedCIDR = old.allocatedCIDR) : Upkept (Effect.apply (.putObject k (.pool pool)) s) := by
  intro k'
  rw [poolState_apply]
  simp only [PoolState.apply]
  split
  · rename_i heq
    rw [← heq]
    exact (h k).replaced hk hcidr
  · exact h k'

theorem Upkept.remove (h : Upkept s) (hempty : ∀ r ∈ s.rows, r.poolKey ≠ k) :
    Upkept (Effect.apply (.removeObject k) s) := by
  intro k'
  rw [poolState_apply]
  simp only [PoolState.apply]
  split
  · rename_i heq
    have hrows : (s.poolState k').rows = [] := by
      simp only [Db.poolState, Db.poolRows, List.map_eq_nil_iff, List.filter_eq_nil_iff]
      intro r hr hkey
      exact hempty r hr ((of_decide_eq_true hkey).trans heq.symm)
    rw [hrows]
    refine ⟨fun _ => rfl, ?_⟩
    rintro _ _ ⟨⟩
  · exact h k'

theorem Upkept.txn {α : Type} {ed : String} {prog : Tx α} {a : α} (h : Upkept s) (hprog : PoolTxn ed prog.void)
    (hrun : postgres.run prog s = .ok (a, s')) (hobjects : s'.ledger.objects = s.ledger.objects)
    (hblank : ∀ k, (s.poolState k).pool = none → s'.poolState k = s.poolState k) : Upkept s' := by
  have hvoid : postgres.run prog.void s = .ok ((), s') := by
    rw [Prog.void, Database.run_bind, hrun]
    rfl
  intro k
  cases hpool : (s.poolState k).pool with
  | none => exact hblank k hpool ▸ h k
  | some pool =>
    -- The pool that is stored afterwards has the same range.
    have hcore : (s'.pool k).map IPPool.core = some pool.core := by
      rw [← ledger_pool, Ledger.pool, hobjects, ← Ledger.pool, ledger_pool]
      exact congrArg (Option.map IPPool.core) hpool
    obtain ⟨pool', hpool', hsame⟩ := Option.map_eq_some_iff.mp hcore
    refine ⟨fun hnone => absurd (hpool'.symm.trans hnone) (Option.some_ne_none _), ?_⟩
    intro current p hcurrent hp
    obtain rfl : pool' = current := Option.some.inj (hpool'.symm.trans hcurrent)
    have hrange : pool.allocatedCIDR = some p := (congrArg IPPool.allocatedCIDR hsame.symm).trans hp
    obtain ⟨hm, hfloored⟩ := (h k).floored pool p hpool hrange
    exact ⟨hm, (floored_kept ed k hm).run hprog hfloored hvoid⟩

end

section

variable {s : Db} {k : Key}

theorem poolState_of_on {α : Type} {prog : Tx α} {pool : Key} (hne : pool ≠ k)
    (h : Emits postgres (Effect.On pool) prog) :
    postgres.After s prog fun _ s' => s'.poolState k = s.poolState k := by
  apply Database.After.keeps
  apply Keeps.of_emits h
  intro e he s
  exact (poolState_apply k e s).trans (he.off hne _)

theorem pool_of_stored {pool : IPPool} (h : s.ledger.objects k = some (.pool pool)) : (s.poolState k).pool ≠ none := by
  intro hnone
  have hpool : s.ledger.pool k = some pool := by simp [Ledger.pool, h]
  rw [ledger_pool, show s.pool k = none from hnone] at hpool
  cases hpool

theorem pool_of_object {o : Object} (h : s.object k = some o) : (s.poolState k).pool = o.asPool := by
  rw [show (s.poolState k).pool = s.pool k from rfl, pool_eq_asPool, h]
  rfl

theorem pool_of_absent (h : s.object k = none) : (s.poolState k).pool = none := by
  rw [show (s.poolState k).pool = s.pool k from rfl, pool_eq_asPool, h]
  rfl

theorem allocatePrefix_upkept (ed : String) (req : PrefixRequest) :
    postgres.Preserves Upkept (allocatePrefix ed req) := by
  intro s hs b s' hrun
  obtain ⟨mid, pool, block, htaken⟩ := allocatePrefix_after req b s' hrun
  refine hs.txn (.allocatePrefix req) hrun (taken_objects htaken).1 ?_
  intro k hk
  have hne : req.poolKey ≠ k := by
    rintro rfl
    exact pool_of_stored htaken.stored hk
  exact poolState_of_on hne (allocatePrefix_emits ed req) b s' hrun

theorem carveFromPool_upkept (ed : String) (source : Key) (n : ℤ) (carve : PoolCarve) :
    postgres.Preserves Upkept (carveFromPool ed source n carve) := by
  intro s hs block s' hrun
  obtain ⟨mid, pool, b, htaken⟩ := carveFromPool_after source n carve block s' hrun
  refine hs.txn (.carveFromPool source n carve) hrun (taken_objects htaken).1 ?_
  intro k hk
  have hne : source ≠ k := by
    rintro rfl
    exact pool_of_stored htaken.stored hk
  exact poolState_of_on hne (carveFromPool_emits ed source n carve) block s' hrun

theorem deleteAllocations_aside {cond : DeleteCond} (hk : ∀ r ∈ cond.select s.rows, r.poolKey ≠ k) :
    postgres.After s (deleteAllocations cond) fun _ s' => s'.poolState k = s.poolState k := by
  apply Database.After.step
  intro released es hexec
  obtain ⟨rfl, rfl⟩ := Prod.mk.inj (Except.ok.inj hexec)
  have hdeleted : (postgres.view ((cond.select s.rows).map fun r => Effect.deleteRow r.poolKey r.allocationKey)
      s).poolState k = s.poolState k := by
    apply poolState_view_off
    intro e he
    obtain ⟨r, hr, rfl⟩ := List.mem_map.mp he
    have hon : Effect.On r.poolKey (.deleteRow r.poolKey r.allocationKey) := rfl
    exact hon.off (hk r hr)
  rw [← hdeleted]
  change postgres.After _ (sendAll lowerSearchFloor (cond.select s.rows) >>= fun _ =>
    sendAll publishRelease (cond.select s.rows)) _
  apply Database.After.bind
  refine (sendAll_keeps fun old hold _ => poolState_of_on (hk old hold)
    ((lowerSearchFloor_emits old).mono fun _ => Effect.SetsFloor.on)).mono ?_
  intro _ s₁ h₁
  rw [← h₁]
  exact sendAll_keeps fun old hold _ => poolState_of_on (hk old hold) (publishRelease_emits old)

theorem select_mem {cond : DeleteCond} {rows : List Row} {r : Row} (h : r ∈ cond.select rows) : r ∈ rows := by
  cases cond with
  | claimKey k => exact List.mem_of_find?_eq_some (Option.mem_toList.mp h)
  | allocationKey k => exact List.mem_of_find?_eq_some (Option.mem_toList.mp h)
  | reservationsOf pool => exact (List.mem_filter.mp h).1

theorem deleteAllocations_upkept {cond : DeleteCond} (hprog : PoolTxn "" (deleteAllocations cond)) :
    postgres.Preserves Upkept (deleteAllocations cond) := by
  intro s hs a s' hrun
  have hvoid : (deleteAllocations cond).void = deleteAllocations cond := Prog.bind_pure _
  refine hs.txn (hvoid.symm ▸ hprog) hrun ?_ ?_
  · rw [deleteAllocations_ledger cond a s' hrun]
    rfl
  · intro k hk
    exact deleteAllocations_aside (fun r hr => hs.rows_ne hk r (select_mem hr)) a s' hrun

theorem release_upkept (claim : Key) : postgres.Preserves Upkept (release claim) := by
  intro s hs retained s' hrun
  have hlater : postgres.After s (release claim) fun _ s' => s'.ledger.objects = s.ledger.objects ∧
      ∀ k, (s.poolState k).pool = none → s'.poolState k = s.poolState k := by
    apply Database.After.step
    intro keys es hexec
    obtain ⟨rfl, rfl⟩ := Prod.mk.inj (Except.ok.inj hexec)
    have hledger := ledger_clearKeys ((s.rows.filter fun r => r.claimKey = some claim && r.reclaimPolicy = .retain).map
      Row.allocationKey) s
    generalize hs₁ : postgres.view _ s = s₁ at hledger ⊢
    have hstate : ∀ k, s₁.poolState k = s.poolState k := by
      intro k
      rw [← hs₁]
      apply poolState_view_off
      intro e he
      obtain ⟨key, -, rfl⟩ := List.mem_map.mp he
      exact off_setClaimKey k key none
    apply Database.After.bind
    have hs₁' : Upkept s₁ := hs.of_poolState hstate
    have haside : postgres.After s₁ (deleteAllocations (.claimKey claim)) fun _ s₂ =>
        ∀ k, (s₁.poolState k).pool = none → s₂.poolState k = s₁.poolState k := by
      intro a s₂ hrun₂ k hk
      exact deleteAllocations_aside (fun r hr => hs₁'.rows_ne hk r (select_mem hr)) a s₂ hrun₂
    apply Database.After.pure
    apply Database.After.bind
    refine ((deleteAllocations_ledger (.claimKey claim)).and haside).mono ?_
    rintro _ s₂ ⟨hledger₂, hblank⟩
    refine .pure ⟨?_, ?_⟩
    · have hobjects : s₁.ledger.objects = s.ledger.objects := by rw [hledger]
      rw [hledger₂]
      exact hobjects
    · intro k hk
      rw [← hstate k] at hk ⊢
      exact hblank k hk
  obtain ⟨hobjects, hblank⟩ := hlater retained s' hrun
  exact hs.txn (@PoolTxn.release "" claim) hrun hobjects hblank

theorem bindScopeRange_upkept (pool claim : Key) : postgres.Preserves Upkept (bindScopeRange pool claim) := by
  intro s hs cidr s' hrun
  apply hs.of_poolState
  intro k
  have hkeep : postgres.After s (bindScopeRange pool claim) fun _ s' => s'.poolState k = s.poolState k := by
    apply Database.After.keeps
    apply Keeps.of_emits (bindScopeRange_off pool claim)
    intro e he s
    exact (poolState_apply k e s).trans (he _)
  exact hkeep cidr s' hrun

theorem deleteObject_upkept (key : Key) : postgres.Preserves Upkept (send (.deleteObject key)) := by
  apply Database.Preserves.call
  intro s r es hs hexec
  obtain ⟨hfree, rfl⟩ := deleteObject_ok hexec
  exact hs.remove hfree

theorem insertObject_upkept (key : Key) {o : Object}
    (ho : ∀ pool p, o.asPool = some pool → pool.allocatedCIDR = some p → ¬ p.MeetsMapped) :
    postgres.Preserves Upkept (send (.insertObject key o)) := by
  apply Database.Preserves.call
  intro s r es hs hexec
  obtain ⟨habsent, rfl⟩ := insertObject_ok hexec
  have hnone : (s.poolState key).pool = none := pool_of_absent habsent
  cases o with
  | pool pool => exact hs.put_pool hnone (ho pool · rfl)
  | class_ | claim | allocation => exact hs.put_other hnone rfl

theorem claimPoolIdentity_upkept (className digest : String) (key : Key) :
    postgres.Preserves Upkept (claimPoolIdentity className digest key) := by
  have hclaim : postgres.Preserves Upkept (send (.claimPoolIdentity ⟨className, digest, key⟩)) := by
    apply Database.Preserves.call
    intro s r es hs hexec
    have h : exec (.claimPoolIdentity ⟨className, digest, key⟩) s = .ok (r, es) := hexec
    simp only [exec] at h
    split at h
    · cases h
      exact hs
    · cases h
      exact hs.of_poolState fun k => poolState_apply k (.insertIdentity ⟨className, digest, key⟩) s
  apply hclaim.bind
  intro (won : Bool)
  refine .ite (.pure _) ?_
  apply (Database.Preserves.of_emits (emits_read (q := .lookupPoolIdentity className digest) fun _ => rfl)).bind
  intro (winner : Option Key)
  cases winner with
  | none => exact .throw _
  | some key => exact .pure _

end

section

variable {T : Type} {S : Strategy T} {tenant : String} {key : Key} {obj : T} {admitted forceAllowCreate : Bool}

theorem create_upkept
    (hnew : ∀ pool p, (S.encode (S.prepareForCreate obj)).asPool = some pool → pool.allocatedCIDR = some p →
      ¬ p.MeetsMapped) : postgres.Preserves Upkept (S.create tenant key obj admitted) := by
  refine .ite (.throw _) (.ite (.throw _) (.ite (.throw _) ?_))
  exact (insertObject_upkept key hnew).bind fun _ => .pure _

theorem delete_upkept : postgres.Preserves Upkept (S.delete key admitted) := by
  intro s hs
  refine Strategy.delete_after.mono ?_
  rintro _ s' ⟨-, hfree, rfl⟩
  exact hs.remove hfree

theorem update_upkept (hencode : ∀ t, (S.encode t).asPool = none)
    (hdecode : ∀ o t, S.decode o = some t → o.asPool = none) :
    postgres.Preserves Upkept (S.update tenant key obj forceAllowCreate admitted fun _ => pure ()) := by
  intro s hs
  refine (Strategy.update_after fun _ => .pure rfl).mono ?_
  rintro new s' (⟨-, hcreated⟩ | hreplaced)
  · rw [hcreated.stored]
    exact hs.put_other (pool_of_absent hcreated.absent) (hencode _)
  · obtain ⟨o, old, ho, hold, -, -⟩ := hreplaced.updated
    obtain hsame | hput := hreplaced.stored
    · exact hsame ▸ hs
    · rw [hput]
      exact hs.put_other ((pool_of_object ho).trans (hdecode o old hold)) (hencode _)

end

theorem persist_upkept {α : Type} {dryRun : List String} {p : Tx α} (h : postgres.Preserves Upkept p) :
    Request.Preserves Upkept (persist dryRun p) := by
  simp only [persist]
  split
  · exact .rollback _
  · exact .transact h

theorem createClass_upkept (req : ClassRequest) : Request.Preserves Upkept (createClass req) := by
  refine .bind (.ofExcept _) fun _ => .bind (.rollback _) fun _ => persist_upkept (create_upkept ?_)
  intro pool p hpool
  cases hpool

theorem updateClass_upkept (req : ClassRequest) (forceAllowCreate : Bool) :
    Request.Preserves Upkept (updateClass req forceAllowCreate) := by
  refine persist_upkept (update_upkept (fun _ => rfl) ?_)
  intro o t h
  cases o with
  | pool pool => cases h
  | class_ | claim | allocation => rfl

theorem prepared_range {req : PoolRequest} (hunmapped : req.Unmapped) (p : Cidr)
    (hp : (preparePoolForCreate req.pool).allocatedCIDR = some p) : ¬ p.MeetsMapped := by
  apply prepared_unmapped hunmapped
  rw [← hp]
  exact (congrArg IPPool.allocatedCIDR (preparePoolForCreate_core req.pool)).symm

theorem updatePool_upkept (req : PoolRequest) (forceAllowCreate : Bool)
    (hunmapped : (Action.updatePool req forceAllowCreate).Unmapped) :
    Request.Preserves Upkept (updatePool req forceAllowCreate) := by
  apply persist_upkept
  intro s hs
  refine (Strategy.update_after fun new => unchanged_of_reads (validateClassOffers_emits req.project new)).mono ?_
  rintro new s' (⟨rfl, hcreated⟩ | hreplaced)
  · obtain rfl := hcreated.prepared
    rw [hcreated.stored]
    exact hs.put_pool (pool_of_absent hcreated.absent) (prepared_range hunmapped)
  · obtain ⟨o, old, ho, hold, rfl, -⟩ := hreplaced.updated
    obtain hsame | hput := hreplaced.stored
    · exact hsame ▸ hs
    · rw [hput]
      exact hs.replace_pool ((pool_of_object ho).trans hold) rfl

theorem deletePool_upkept (project name : String) (admitted : Bool) (dryRun : List String) :
    Request.Preserves Upkept (deletePool project name admitted dryRun) := by
  have hreservations := deleteAllocations_upkept (PoolTxn.releasePoolReservations (poolStorageKey project name))
  refine .bind (.rollback _) fun pool => ?_
  cases pool.parentPoolRef with
  | none => exact .bind (.transact hreservations) fun _ => persist_upkept delete_upkept
  | some parent =>
    apply Request.Preserves.transact
    apply hreservations.bind
    intro _
    apply (release_upkept _).bind
    exact fun _ => deleteObject_upkept _

theorem deletePoolCollection_upkept (project : String) (admitted : Bool) (dryRun names : List String) :
    Request.Preserves Upkept (deletePoolCollection project admitted dryRun names) := by
  induction names with
  | nil => exact .pure _
  | cons name rest ih =>
    refine .bind (fun s hs => ?_) fun _ => ih
    rw [skipMissing_after]
    exact persist_upkept delete_upkept s hs

theorem bindBlock_upkept (hash : Scope.Text → String) (req : ClaimRequest) (claim : IPClaim) (class_ : ResolvedClass)
    (poolKey : Key) (n : ℤ) (space : Scope × String) :
    postgres.Preserves Upkept (bindBlock hash req claim class_ poolKey n space) := by
  apply (allocatePrefix_upkept _ _).bind
  intro cidr
  apply (insertObject_upkept (req.allocationKey hash) _).bind
  · intro _
    apply (insertObject_upkept req.key _).bind
    · exact fun _ => .pure _
    · exact fun _ _ hpool => (nomatch hpool)
  · exact fun _ _ hpool => (nomatch hpool)

theorem holdRange_upkept (req : ClaimRequest) (claim : IPClaim) (poolKey : Key) :
    postgres.Preserves Upkept (holdRange req claim poolKey) := by
  apply (bindScopeRange_upkept poolKey req.key).bind
  intro cidr
  apply (insertObject_upkept req.key _).bind
  · exact fun _ => .pure _
  · exact fun _ _ hpool => (nomatch hpool)

theorem sendAll_upkept {α : Type} {f : α → Tx Unit} (h : ∀ a, postgres.Preserves Upkept (f a)) (as : List α) :
    postgres.Preserves Upkept (sendAll f as) := by
  induction as with
  | nil => exact .pure _
  | cons a as ih => exact (h a).bind fun _ => ih

theorem releaseRangeTree_upkept (levels : ℕ) (poolKey : Key) :
    postgres.Preserves Upkept (releaseRangeTree levels poolKey) := by
  induction levels generalizing poolKey with
  | zero => exact .throw _
  | succ levels ih =>
    apply (Database.Preserves.of_emits (emits_read (q := .occupants poolKey) fun _ => rfl)).bind
    intro (rows : List Row)
    refine .ite ?_ (.throw _)
    apply (sendAll_upkept ih _).bind
    intro _
    apply (deleteAllocations_upkept (PoolTxn.releasePoolReservations poolKey)).bind
    intro _
    apply (deleteAllocations_upkept (PoolTxn.releaseAllocation poolKey)).bind
    exact fun _ => deleteObject_upkept _

theorem deleteScopeRange_upkept (claimKey : Key) : postgres.Preserves Upkept (deleteScopeRange claimKey) := by
  apply (Database.Preserves.of_emits (emits_read (q := .findScopeRange claimKey) fun _ => rfl)).bind
  intro (held : Option Key)
  cases held with
  | some poolKey => exact (releaseRangeTree_upkept _ poolKey).bind fun _ => deleteObject_upkept _
  | none => exact deleteObject_upkept _

theorem unbindAllocation_upkept (allocationKey : Key) : postgres.Preserves Upkept (unbindAllocation allocationKey) := by
  intro s hs
  apply getObject_after
  cases ho : s.object allocationKey with
  | none => exact .pure hs
  | some o =>
    apply Database.After.bind
    apply Database.After.ofOption
    intro alloc halloc
    apply Database.After.call
    intro r es hexec
    obtain ⟨-, rfl⟩ := updateObject_ok hexec
    refine hs.put_other ((pool_of_object ho).trans ?_) rfl
    cases o with
    | pool pool => cases halloc
    | class_ | claim | allocation => rfl

theorem releaseAndDelete_upkept (tenant namespace_ : String) (claim : IPClaim) (claimKey : Key) :
    postgres.Preserves Upkept (releaseAndDelete tenant namespace_ claim claimKey) := by
  apply (release_upkept claimKey).bind
  intro retained
  have hdispose : ∀ key, postgres.Preserves Upkept (disposeAllocation key retained) :=
    fun key => .ite (unbindAllocation_upkept key) (deleteObject_upkept key)
  cases claim.boundAllocationRef with
  | none => exact deleteObject_upkept _
  | some name => exact .ite ((hdispose _).bind fun _ => deleteObject_upkept _) (deleteObject_upkept _)

theorem updateObject_upkept {s : Db} {key : Key} {o old : Object} (hs : Upkept s) (hold : s.object key = some old)
    (hpool : old.asPool = none) (ho : o.asPool = none) :
    postgres.After s (send (.updateObject key o)) fun _ s' => Upkept s' := by
  apply Database.After.call
  intro r es hexec
  obtain ⟨-, rfl⟩ := updateObject_ok hexec
  exact hs.put_other ((pool_of_object hold).trans hpool) ho

theorem deleteClaim_upkept (req : DeleteRequest) : Request.Preserves Upkept (deleteClaim req) := by
  intro s hs
  have hdone : Request.Ensures s (deleteClaim req) fun _ s' => Upkept s' := by
    apply Request.Ensures.bind
    apply Request.Ensures.rollback _ fun _ => hs
    apply Strategy.get_after
    intro o claim ho hclaim
    have hpool : o.asPool = none := by
      cases o with
      | pool pool => cases hclaim
      | class_ | claim | allocation => rfl
    dsimp only
    split
    · exact .throw hs
    split
    · exact .pure hs
    split
    · exact Request.Preserves.transact (deleteScopeRange_upkept _) s hs
    · apply Request.Ensures.bind
      apply Request.Ensures.transact _ fun _ => hs
      refine (updateObject_upkept hs ho hpool rfl).mono ?_
      intro _ s₁ hs₁
      exact Request.Preserves.attempts (.transact (releaseAndDelete_upkept _ _ claim _)) _ s₁ hs₁
  exact hdone

theorem deleteAllocation_upkept (req : DeleteRequest) : Request.Preserves Upkept (deleteAllocation req) := by
  refine .bind (.rollback _) fun alloc => ?_
  split
  · exact .throw _
  split
  · exact .throw _
  split
  · exact .pure _
  apply Request.Preserves.transact
  exact (deleteAllocations_upkept (PoolTxn.releaseAllocation _)).bind fun _ => deleteObject_upkept _

theorem updateClaim_upkept (req : ClaimRequest) (forceAllowCreate : Bool) :
    Request.Preserves Upkept (updateClaim req forceAllowCreate) := by
  refine persist_upkept (update_upkept (fun _ => rfl) ?_)
  intro o t h
  cases o with
  | pool pool => cases h
  | class_ | claim | allocation => rfl

theorem updateAllocation_upkept (req : AllocationRequest) (forceAllowCreate : Bool) :
    Request.Preserves Upkept (updateAllocation req forceAllowCreate) := by
  refine persist_upkept (update_upkept (fun _ => rfl) ?_)
  intro o t h
  cases o with
  | pool pool => cases h
  | class_ | claim | allocation => rfl

section

variable {hash : Scope.Text → String} {s : Db} {k : Key}

theorem Ranged.taken_unmapped {ed digest : String} {n : ℤ} {row : Cidr → Row} {L mid carved : Ledger} {pool : IPPool}
    {block : IPNet} {b : Cidr} (h : Ranged L) (htaken : Taken ed k digest n row L mid carved pool block b) :
    ¬ b.MeetsMapped := by
  obtain ⟨p, -, hm, -, -, hwithin, -⟩ := h.found htaken
  exact Cidr.not_meets_of_within hm hwithin

theorem createChildPool_upkept (ed : String) (req : PoolRequest) (parent : String) (hs : Upkept s)
    (hranged : Ranged s.ledger) : postgres.After s (createChildPool ed req parent) fun _ s' => Upkept s' := by
  simp only [createChildPool]
  split
  · exact .throw
  split
  · exact .throw
  apply Database.After.bind
  refine (unchanged_of_reads (poolGet_emits _)).mono ?_
  intro parentPool s₀ hs₀
  rw [hs₀]
  apply Database.After.bind
  apply Database.After.ofOption
  intro _ _
  apply Database.After.bind
  refine ((allocatePrefix_after (req.prefixRequest parent)).and (allocatePrefix_upkept ed (req.prefixRequest parent) s
    hs)).mono ?_
  rintro b s₁ ⟨⟨mid, pool, block, htaken⟩, hs₁⟩
  apply Database.After.bind
  refine (insertObject_upkept req.key ?_ s₁ hs₁).mono fun _ _ h => .pure h
  intro ready p hready hp
  obtain rfl := Option.some.inj hready
  have hrange : (setPoolStatusCapacity { preparePoolForCreate req.pool with allocatedCIDR := some b }
      [b.net]).core.allocatedCIDR = some b := by
    rw [core_setPoolStatusCapacity]
    rfl
  obtain rfl : b = p := Option.some.inj (hrange.symm.trans hp)
  exact hranged.taken_unmapped htaken

theorem materialiseReservations_upkept (ed : String) {pool : IPPool} {b : Cidr} (hs : Upkept s)
    (hpool : (s.poolState k).pool = some pool) (hb : pool.allocatedCIDR = some b) :
    postgres.After s (materialiseReservations ed k pool [b.net]) fun _ s' => Upkept s' := by
  obtain ⟨hm, hfloored⟩ := (hs k).floored pool b hpool hb
  intro a s' hrun
  obtain ⟨hsteps, ⟨current, hcurrent, hsame⟩, hpub⟩ := Database.After.locked
    (@materialiseReservations_locked _ _ k _ b ed (frozen_alone (.object k) k) pool hfloored.1.based
      ⟨pool, hpool, fun _ => rfl⟩) a s' hrun
  have hfloored' := (floored_kept ed k hm).steps _ _ hfloored hsteps hpub
  intro k'
  by_cases hk : k = k'
  · subst hk
    refine ⟨fun hnone => (nomatch hcurrent.symm.trans hnone), ?_⟩
    intro pool' p hpool' hp
    obtain rfl := Option.some.inj (hcurrent.symm.trans hpool')
    have hrange : current.allocatedCIDR = pool.allocatedCIDR := (congrArg IPPool.allocatedCIDR (hsame 0) :)
    obtain rfl : b = p := Option.some.inj (hb.symm.trans (hrange.symm.trans hp))
    exact ⟨hm, hfloored'⟩
  · rw [poolState_of_on hk (materialiseReservations_emits k _ ed pool) a s' hrun]
    exact hs k'

theorem provisionPool_upkept (ed : String) (level : CascadeLevel) (source : Key) (hs : Upkept s)
    (hranged : Ranged s.ledger) : postgres.After s (provisionPool ed level source) fun _ s' => Upkept s' := by
  apply Database.After.bind
  apply Database.After.ofExcept
  intro n _
  apply Database.After.bind
  refine ((carveFromPool_after source n level.carve).and (carveFromPool_upkept ed source n level.carve s hs)).mono ?_
  rintro block s₁ ⟨⟨mid, parent, b, htaken⟩, hs₁⟩
  have hunmapped := hranged.taken_unmapped htaken
  obtain ⟨p, -, -, -, rfl, -, -⟩ := hranged.found htaken
  let pool := setPoolCapacityStatus (newProvisionedPool level (keyName source) n b.net) [b.net] 0
  have hrange : pool.allocatedCIDR = some b := htaken.text
  have hinsert : postgres.After s₁ (send (.insertObject level.poolKey (.pool pool))) fun _ s₂ =>
      Upkept s₂ ∧ (s₂.poolState level.poolKey).pool = some pool := by
    refine (insertObject_upkept level.poolKey ?_ s₁ hs₁).and ?_
    · intro pool' p' hpool' hp'
      obtain rfl := Option.some.inj hpool'
      obtain rfl : b = p' := Option.some.inj (hrange.symm.trans hp')
      exact hunmapped
    · apply Database.After.call
      intro r es hexec
      obtain ⟨-, rfl⟩ := insertObject_ok hexec
      have hput := poolState_apply level.poolKey (.putObject level.poolKey (.pool pool)) s₁
      simp only [PoolState.apply, if_true] at hput
      exact congrArg PoolState.pool hput
  apply Database.After.bind
  refine hinsert.mono ?_
  rintro _ s₂ ⟨hs₂, hpool⟩
  exact materialiseReservations_upkept ed hs₂ hpool hrange

structure Maintained (s : Db) : Prop where
  consistent : Consistent s.ledger
  ranged : Ranged s.ledger
  upkept : Upkept s

theorem ensureLevel_maintained (ed : String) (level : CascadeLevel) (source : Key) :
    postgres.Preserves Maintained (ensureLevel ed level source) := by
  intro s hs
  have hupkept : postgres.After s (ensureLevel ed level source) fun _ s' => Upkept s' := by
    apply Database.After.bind
    refine (lookupPoolIdentity_after level.class_.name level.scopeDigest).mono ?_
    rintro existing s₀ ⟨hs₀, -⟩
    rw [hs₀]
    cases existing with
    | some key => exact .pure hs.upkept
    | none =>
      apply Database.After.bind
      refine ((claimPoolIdentity_after level.class_.name level.scopeDigest level.poolKey).and
        (claimPoolIdentity_upkept level.class_.name level.scopeDigest level.poolKey s hs.upkept)).mono ?_
      rintro ⟨key, won⟩ s₁ ⟨hclaimed, hs₁⟩
      cases won with
      | false => exact .pure hs₁
      | true =>
        obtain ⟨-, hledger⟩ : key = level.poolKey ∧ s₁.ledger = _ := hclaimed
        have hranged : Ranged s₁.ledger := by
          rw [hledger]
          exact ⟨hs.ranged.derived, hs.ranged.unmapped, hs.ranged.rows⟩
        apply Database.After.bind
        exact (provisionPool_upkept ed level source hs₁ hranged).mono fun _ _ h => .pure h
  refine ((ensureLevel_after level source).and hupkept).mono ?_
  rintro ensured s' ⟨⟨-, hsame | ⟨n, mid, carved, pool, block, b, hprov⟩⟩, hs'⟩
  · exact hsame ▸ hs
  · exact ⟨provisioned_consistent hs.consistent hprov, hs.ranged.provisioned hs.consistent hprov, hs'⟩

theorem ensureLevels_maintained (ed : String) (levels : List CascadeLevel) (source : Key) :
    Request.Preserves Maintained (ensureLevels ed levels source) := by
  induction levels generalizing source with
  | nil => exact .pure _
  | cons level rest ih => exact .bind (.transact (ensureLevel_maintained ed level source)) fun ensured => ih ensured.1

theorem resolvePool_maintained (consumer : String) (leaf : ResolvedClass) (claimScope : Scope) :
    Request.Preserves Maintained (resolvePool hash consumer leaf claimScope) := by
  refine .bind (.rollback _) fun levels => ?_
  cases levels with
  | nil => exact .rollback _
  | cons first rest => exact .bind (.rollback _) fun source => ensureLevels_maintained _ _ source

theorem resolveScopeRange_maintained (consumer : String) (leaf : ResolvedClass) (claimScope : Scope) :
    Request.Preserves Maintained (resolveScopeRange hash consumer leaf claimScope) := by
  simp only [resolveScopeRange]
  split
  · exact .throw _
  refine .bind (.rollback _) fun levels => ?_
  cases levels with
  | nil => exact .throw _
  | cons first rest => exact .bind (.rollback _) fun source => ensureLevels_maintained _ _ source

theorem createBlock_upkept (req : ClaimRequest) (claim : IPClaim) (class_ : ResolvedClass) (hs : Maintained s) :
    Request.Ensures s (createBlock hash req claim class_) fun _ s' => Upkept s' := by
  apply Request.Ensures.bind
  apply Request.Ensures.ofExcept _ fun _ => hs.upkept
  intro n _
  apply Request.Ensures.bind
  apply Request.Ensures.ofExcept _ fun _ => hs.upkept
  intro space _
  apply Request.Ensures.bind
  have hresolved : Request.Ensures s (resolvePool hash req.tenant class_ claim.scope) fun _ s' => Maintained s' :=
    resolvePool_maintained req.tenant class_ claim.scope s hs
  refine hresolved.mono ?_
  intro answer s₁ hs₁
  cases answer with
  | error e => exact hs₁.upkept
  | ok poolKey =>
    dsimp only
    split
    · exact Request.Preserves.rollback _ s₁ hs₁.upkept
    · exact Request.Preserves.transact (bindBlock_upkept hash req claim class_ poolKey n space) s₁ hs₁.upkept

theorem createScopeRange_upkept (req : ClaimRequest) (claim : IPClaim) (class_ : ResolvedClass) (hs : Maintained s) :
    Request.Ensures s (createScopeRange hash req claim class_) fun _ s' => Upkept s' := by
  apply Request.Ensures.bind
  have hresolved : Request.Ensures s (resolveScopeRange hash req.tenant class_ claim.scope) fun _ s' => Maintained s' :=
    resolveScopeRange_maintained req.tenant class_ claim.scope s hs
  refine hresolved.mono ?_
  intro answer s₁ hs₁
  cases answer with
  | error e => exact hs₁.upkept
  | ok poolKey =>
    dsimp only
    split
    · exact Request.Preserves.rollback _ s₁ hs₁.upkept
    · exact Request.Preserves.transact (holdRange_upkept req claim poolKey) s₁ hs₁.upkept

theorem createClaim_upkept (req : ClaimRequest) (hs : Maintained s) :
    Request.Ensures s (createClaim hash req) fun _ s' => Upkept s' := by
  simp only [createClaim]
  split
  · exact .throw hs.upkept
  apply Request.Ensures.bind
  apply Request.Ensures.rollback _ fun _ => hs.upkept
  intro class_ s₀ _
  apply Request.Ensures.bind
  apply Request.Ensures.ofExcept _ fun _ => hs.upkept
  intro _ _
  dsimp only
  split
  · exact .throw hs.upkept
  split
  · exact .throw hs.upkept
  split
  · exact createScopeRange_upkept req _ class_ hs
  · exact createBlock_upkept req _ class_ hs

theorem createPool_upkept (ed : String) (req : PoolRequest) (hunmapped : req.Unmapped) (hs : Maintained s) :
    Request.Ensures s (createPool ed req) fun _ s' => Upkept s' := by
  apply Request.Ensures.bind
  apply Request.Ensures.rollback _ fun _ => hs.upkept
  intro _ _ _
  dsimp only
  split
  · apply Request.Ensures.bind
    apply Request.Ensures.rollback _ fun _ => hs.upkept
    intro _ _ _
    have hcreate : postgres.Preserves Upkept (createRootPool req) := by
      apply create_upkept
      intro pool p hpool hp
      obtain rfl := Option.some.inj hpool
      exact prepared_range hunmapped p hp
    exact persist_upkept hcreate s hs.upkept
  · rename_i parent _
    exact .transact (createChildPool_upkept ed req parent hs.upkept hs.ranged) fun _ => hs.upkept

theorem serve_upkept (hs : Maintained s) {a : Action} (ha : a.Unmapped) : Upkept (serve hash a s) := by
  cases a with
  | createClass req => exact createClass_upkept req s hs.upkept
  | updateClass req force => exact updateClass_upkept req force s hs.upkept
  | deleteClass project name admitted dryRun => exact persist_upkept delete_upkept s hs.upkept
  | createPool req => exact createPool_upkept _ req ha hs
  | updatePool req force => exact updatePool_upkept req force ha s hs.upkept
  | deletePool project name admitted dryRun => exact deletePool_upkept project name admitted dryRun s hs.upkept
  | deletePools project admitted dryRun names =>
    exact deletePoolCollection_upkept project admitted dryRun names s hs.upkept
  | createClaim req => exact createClaim_upkept req hs
  | updateClaim req force => exact updateClaim_upkept req force s hs.upkept
  | deleteClaim req => exact deleteClaim_upkept req s hs.upkept
  | updateAllocation req force => exact updateAllocation_upkept req force s hs.upkept
  | deleteAllocation req => exact deleteAllocation_upkept req s hs.upkept

theorem empty_maintained : Maintained Db.empty := by
  refine ⟨consistent_empty, ranged_empty, ?_⟩
  intro k
  exact ⟨fun _ => rfl, fun _ _ hpool => (nomatch hpool)⟩

theorem serve_maintained (htabled : s.Tabled) (h : Maintained s) {a : Action} (ha : a.Unmapped) :
    Maintained (serve hash a s) := by
  obtain ⟨hc, hranged, -⟩ := @changes_inv hash Ranged (fun a _ => a.Unmapped)
    (fun hc hL ha hchange => ⟨hchange.growth.ranged hc hL ha, ha⟩) a _ _ h.consistent h.ranged ha
    (serve_changes htabled h.consistent a)
  exact ⟨hc, hranged, serve_upkept h ha⟩

end

end Ipam.Registry
