import Ipam.Allocator.Release

namespace Ipam.Allocator

open Allocation Database Transaction

inductive PoolTxn (emptyDigest : String) : Tx Unit → Prop where
  | allocatePrefix (req : PrefixRequest) : PoolTxn emptyDigest (allocatePrefix emptyDigest req).void
  | carveFromPool (pool : Key) (n : ℤ) (carve : PoolCarve) :
      PoolTxn emptyDigest (carveFromPool emptyDigest pool n carve).void
  | materialiseReservations (pool : Key) : PoolTxn emptyDigest (reservePool emptyDigest pool).void
  | release (claim : Key) : PoolTxn emptyDigest (release claim).void
  | releaseAllocation (key : Key) : PoolTxn emptyDigest (releaseAllocation key)
  | releasePoolReservations (pool : Key) : PoolTxn emptyDigest (releasePoolReservations pool)
  | bindScopeRange (pool claim : Key) : PoolTxn emptyDigest (bindScopeRange pool claim).void

structure Kept (strict : Bool) (emptyDigest : String) (k : Key) (p : Cidr) (J : PoolState → Prop)
    (L : List Row → PoolState → PoolState → Prop) : Prop where
  based : ∀ x, J x → Based k p x
  steps : ∀ x y, J x → PoolSteps emptyDigest k p x y → (Published p x → Published p y) → J y
  lowers : Lowers strict k p J L
  release : ∀ released past x y z, J past → Released k past released → J x → Removed released x y →
    L released x y → Settles p released y z → J z

section

variable {strict : Bool} {emptyDigest : String} {k : Key} {p : Cidr} {J : PoolState → Prop}
  {L : List Row → PoolState → PoolState → Prop}

theorem Kept.lockPool_safe {α : Type} (h : Kept strict emptyDigest k p J L) {f : IPPool → List IPNet → Tx α}
    (hf : ∀ x pool, Based k p x → x.pool = some pool →
      Locked postgres (Rely strict k J) (.object k) (Db.poolState k) x (f pool [p.net])
        (fun _ y => PoolSteps emptyDigest k p x y ∧ (Published p x → Published p y)) (fun _ _ => True)) (c : Db) :
    SafeOn strict k J (withPool k f).void [] [] c := by
  apply safe_lockPool (f := fun o => (afterLock f o).void)
  intro c' hc'
  have hJ : J (c'.poolState k) := hc'.inv
  have hx := h.based _ hJ
  constructor
  · exact hx.pool_ne_none
  · intro o ho
    apply Locked.bind
    apply (afterLock_locked hx (fun pool hpool => hf _ pool hx hpool) ho).mono _ fun _ _ h => h
    rintro _ y ⟨hsteps, hpub⟩
    exact Locked.pure (h.steps _ y hJ hsteps hpub)

theorem Kept.takeBlock_safe (h : Kept strict emptyDigest k p J L) {digest : String} {n : ℤ} {row : Cidr → Row}
    (hrow : Records k digest row) (c : Db) :
    SafeOn strict k J (withPool k (takeBlock emptyDigest k digest n row)).void [] [] c := by
  apply h.lockPool_safe
  intro x pool hx hpool
  apply (takeBlock_locked rely_frozen hx hpool hrow).mono _ fun _ _ h => h
  exact fun _ y hy => ⟨hy.1, fun _ => hy.2⟩

theorem Kept.materialiseReservations_safe (h : Kept strict emptyDigest k p J L) (c : Db) :
    SafeOn strict k J (withPool k (materialiseReservations emptyDigest k)).void [] [] c := by
  apply h.lockPool_safe
  intro x pool hx hpool
  apply (materialiseReservations_locked rely_frozen hx ⟨pool, hpool, fun _ => rfl⟩).mono _ fun _ _ h => h
  exact fun _ y hy => ⟨hy.1, hy.2.2⟩

theorem Kept.deleteAllocations_safe (h : Kept strict emptyDigest k p J L) {log : List Effect}
    (hlog : ∀ e ∈ log, ∃ key claim, e = .setClaimKey key claim) {held : List Lock} {c : Db} (cond : DeleteCond) :
    SafeOn strict k J (deleteAllocations cond) log held c :=
  Allocator.deleteAllocations_safe h.based h.lowers h.release hlog cond

theorem Kept.release_safe (h : Kept strict emptyDigest k p J L) (claim : Key) (c : Db) :
    SafeOn strict k J (Allocator.release claim).void [] [] c := by
  intro c' hc'
  have hprog : ∀ retained : List Key, SafeOn strict k J
      (Prog.void (deleteAllocations (.claimKey claim) >>= fun _ => pure retained))
      ([] ++ retained.map fun key => .setClaimKey key none)
      ([] ++ postgres.locks (.retainAllocations claim) (postgres.view [] c')) c' := by
    intro retained
    apply Database.wp_bind
    apply Database.wp_bind
    apply Database.wp_mono (h.deleteAllocations_safe _ (.claimKey claim))
    · exact fun _ _ _ _ hcommit => hcommit
    · exact fun _ _ _ _ h => h
    · intro e he
      obtain ⟨key, -, rfl⟩ := List.mem_map.mp he
      exact ⟨key, none, rfl⟩
  exact hprog _

theorem bindScopeRange_emits (pool claim : Key) :
    Emits postgres (fun e => e = .setClaimKey pool (some claim)) (bindScopeRange pool claim) := by
  have hbind : Emits postgres (fun e => e = .setClaimKey pool (some claim)) (send (.bindScopeRange pool claim)) := by
    apply Emits.call
    intro s r es hexec
    have h : exec (.bindScopeRange pool claim) s = .ok (r, es) := hexec
    simp only [exec] at h
    split at h
    · cases h
      simp
    split at h
    · cases h
    · cases h
      simp
  apply hbind.bind
  intro bound
  cases bound with
  | some cidr => trivial
  | none =>
    apply (emits_read (q := .carveOf pool) fun _ => rfl).bind
    intro carve
    cases carve <;> trivial

theorem bindScopeRange_off (pool claim : Key) : Emits postgres (Effect.Off k) (bindScopeRange pool claim) :=
  (bindScopeRange_emits pool claim).mono fun _ he => he ▸ off_setClaimKey k pool (some claim)

theorem safe_of_on {α : Type} {prog : Tx α} {pool : Key} (hne : pool ≠ k)
    (h : Emits postgres (Effect.On pool) prog) {c : Db} (hc : J (c.poolState k)) :
    SafeOn strict k J prog.void [] [] c := by
  apply safe_of_off _ (by simp) hc
  exact (h.mono fun _ he => he.off hne).void

theorem Kept.safe (h : Kept strict emptyDigest k p J L) {prog : Tx Unit} (hprog : PoolTxn emptyDigest prog) {c : Db}
    (hc : J (c.poolState k)) : SafeOn strict k J prog [] [] c := by
  cases hprog with
  | allocatePrefix req =>
    by_cases hk : req.poolKey = k
    · subst hk
      rw [allocatePrefix_eq]
      exact h.takeBlock_safe req.records c
    · exact safe_of_on hk (allocatePrefix_emits emptyDigest req) hc
  | carveFromPool pool n carve =>
    by_cases hk : pool = k
    · subst hk
      rw [carveFromPool_void]
      exact h.takeBlock_safe carve.records c
    · exact safe_of_on hk (carveFromPool_emits emptyDigest pool n carve) hc
  | materialiseReservations pool =>
    by_cases hk : pool = k
    · subst hk
      rw [reservePool_eq]
      exact h.materialiseReservations_safe c
    · exact safe_of_on hk (reservePool_emits emptyDigest pool) hc
  | release claim => exact h.release_safe claim c
  | releaseAllocation key => exact h.deleteAllocations_safe (by simp) _
  | releasePoolReservations pool => exact h.deleteAllocations_safe (by simp) _
  | bindScopeRange pool claim =>
    exact safe_of_off (bindScopeRange_off pool claim).void (by simp) hc

theorem Kept.reachable (h : Kept strict emptyDigest k p J L)
    {cond : World Stmt Res Err Db Effect Lock → Label Stmt Res Err → Prop} {init : Db}
    (hinit : J (init.poolState k)) {w : World Stmt Res Err Db Effect Lock}
    (hw : Reachable postgres (Lock.conflictsWith strict) (PoolTxn emptyDigest) cond init w) :
    J (w.committed.poolState k) := by
  have hguard : Lock.conflictsWith strict (.object k) (.object k) = true := by
    simp [Lock.conflictsWith, Lock.conflicts]
  have hsafe : ∀ prog, PoolTxn emptyDigest prog → ∀ c : Db, J (c.poolState k) → SafeOn strict k J prog [] [] c :=
    fun _ hprog _ hc => h.safe hprog hc
  exact Discipline.reachable_inv (I := fun s => J (s.poolState k)) hguard hinit hsafe hw

end

structure Fresh (k : Key) (p : Cidr) (s : Db) : Prop where
  pool : ∃ pool, s.pool k = some pool ∧ pool.allocatedCIDR = some p
  rows : s.poolRows k = []
  floors : s.poolFloors k = []
  consumed : s.consumed k = none

def poolOf (p : Cidr) (strategy : Strategy) : IPPool where
  cidr := none
  ipFamily := none
  parentPoolRef := none
  prefixLength := 0
  classNames := []
  classRef := none
  scope := []
  reservations := none
  strategy := strategy
  minPrefixLength := 0
  maxPrefixLength := 0
  allocatedCIDR := some p
  statusFamily := none
  scopeDigest := ""
  capacity := none

def poolDb (k : Key) (p : Cidr) (strategy : Strategy) : Db :=
  { Db.empty with objects := [(k, .pool (poolOf p strategy))] }

theorem poolDb_fresh (k : Key) (p : Cidr) (strategy : Strategy) : Fresh k p (poolDb k p strategy) := by
  refine ⟨⟨poolOf p strategy, ?_, rfl⟩, rfl, rfl, rfl⟩
  simp [poolDb, Db.pool, Db.object]

def officeKey : Key := .object "infra" .ippools "" "office"

def officePool : Cidr := ⟨.v4, 10 * 2 ^ 24, 24, by decide, by decide, Cidr.tenNetwork_lt, Cidr.tenNetwork_unmapped⟩

def claimOf (pool : Key) (name digest : String) (n : ℤ) : PrefixRequest :=
  ⟨pool, n, digest, .object "infra" .ipclaims "" name, some (.object "infra" .ipallocations "" name), none⟩

theorem Fresh.based {k : Key} {p : Cidr} {s : Db} (h : Fresh k p s) : Based k p (s.poolState k) := by
  refine ⟨h.pool, ?_⟩
  intro r hr
  rw [Db.poolState, h.rows] at hr
  simp at hr

end Ipam.Allocator
