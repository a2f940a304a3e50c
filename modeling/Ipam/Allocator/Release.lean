import Ipam.Allocator.Frame
import Ipam.Database.RowLocks

/-!
Releases delete their rows first and take the pool's lock afterwards. From the delete on, the row locks keep
other transactions from writing the deleted rows; from the pool's lock on, the rest runs as if alone.
-/

namespace Ipam.Allocator

open Allocation Database Transaction

def releaseTotal (p : Cidr) (cs : List Cidr) (recorded : Option ℕ) (b : Cidr) : ℕ :=
  match recorded with
  | none => consumption p cs
  | some base => base - newly p cs b

structure Settles (p : Cidr) (released : List Row) (x y : PoolState) : Prop where
  rows : y.rows = x.rows
  floors : y.floors = x.floors
  pool : ∃ pool, y.pool = some pool ∧ pool.allocatedCIDR = some p
  consumed : y.consumed =
    released.foldl (fun total r => some (releaseTotal p (PoolState.cidrs x) total r.cidr)) x.consumed
  published : y = x ∨ Published p y

def publishAfterLock (old : Row) (o : Option Object) : Tx Unit :=
  match asPool o with
  | none => pure ()
  | some pool => do
    let parents ← parsePoolCIDR pool
    let consumed ← consumptionAfterRelease old.poolKey parents old.cidr.net
    writeConsumed old.poolKey consumed
    persistPoolCapacity old.poolKey pool parents consumed

theorem publishRelease_eq (old : Row) :
    publishRelease old = Prog.call (.lockObject old.poolKey) >>= publishAfterLock old := rfl

section

variable {Others : List Lock → Db → Db → Prop} {guard : Lock} {k : Key} {x : PoolState} {p : Cidr}

theorem consumptionAfterRelease_locked (F : PoolFrozen Others guard k) (hx : Based k p x)
    {b : Cidr} (hb : Settled p b) :
    Locked postgres Others guard (Db.poolState k) x (consumptionAfterRelease k [p.net] b.net)
      (fun v y => y = x ∧ v = releaseTotal p (PoolState.cidrs x) x.consumed b) (fun _ _ => False) := by
  apply Locked.bind
  apply (loadOverlapping_locked F b.string_net).mono _ (fun _ _ h => h)
  rintro cs y ⟨rfl, rfl⟩
  apply Locked.bind
  apply (readConsumed_locked F).mono _ (fun _ _ h => h)
  rintro recorded z ⟨rfl, rfl⟩
  cases z.consumed with
  | none => exact seedConsumption_locked F hx
  | some base =>
    have hdelta := consumptionDelta_net (overlapping_settled hx b) hb rfl
    simp only [removedConsumption, hdelta, newly_overlapping]
    exact Locked.pure ⟨rfl, rfl⟩

theorem publishAfterLock_locked (F : PoolFrozen Others guard k) (hx : Based k p x)
    {old : Row} (hkey : old.poolKey = k) (hold : Settled p old.cidr) {o : Option Object}
    (ho : o.bind Object.asPool = x.pool) :
    Locked postgres Others guard (Db.poolState k) x (publishAfterLock old o) (fun _ y => Settles p [old] x y)
      (fun _ _ => False) := by
  subst hkey
  obtain ⟨pool, hpool, hcidr⟩ := hx.pool
  have hdecode : asPool o = some pool := by
    cases o with
    | none => cases ho.trans hpool
    | some o => exact ho.trans hpool
  have hprog : publishAfterLock old o = parsePoolCIDR pool >>= fun parents =>
      consumptionAfterRelease old.poolKey parents old.cidr.net >>= fun consumed =>
      writeConsumed old.poolKey consumed >>= fun _ => persistPoolCapacity old.poolKey pool parents consumed := by
    simp only [publishAfterLock, hdecode]
  rw [hprog, parsePoolCIDR_eq hcidr]
  apply Locked.bind
  apply Locked.pure
  apply Locked.bind
  apply (consumptionAfterRelease_locked F hx hold).mono _ (fun _ _ h => h)
  rintro v y ⟨rfl, rfl⟩
  apply locked_writeConsumed F _ (fun h => by simp [hpool] at h)
  apply locked_updatePool F _ (fun h => by simp [hpool] at h)
  apply Locked.pure
  refine ⟨rfl, rfl, ⟨_, rfl, hcidr⟩, rfl, Or.inr ?_⟩
  intro w hw
  obtain rfl := Option.some.inj hw
  refine ⟨_, rfl, ?_⟩
  simp only [setPoolCapacityStatus, totalAddresses_net]

theorem Settles.based {released : List Row} {y : PoolState} (h : Settles p released x y) (hx : Based k p x) :
    Based k p y :=
  ⟨h.pool, h.rows ▸ hx.rows⟩

theorem Settles.trans {old : Row} {rest : List Row} {y z : PoolState} (h : Settles p [old] x y)
    (h' : Settles p rest y z) : Settles p (old :: rest) x z := by
  refine ⟨h'.rows.trans h.rows, h'.floors.trans h.floors, h'.pool, ?_, ?_⟩
  · rw [h'.consumed, h.consumed, PoolState.cidrs, h.rows]
    rfl
  · rcases h'.published with rfl | hpub
    · exact h.published
    · exact Or.inr hpub

theorem publishReleases_locked (F : PoolFrozen Others guard k) (hx : Based k p x)
    {released : List Row} (hkey : ∀ r ∈ released, r.poolKey = k) (hset : ∀ r ∈ released, Settled p r.cidr) :
    Locked postgres Others guard (Db.poolState k) x (sendAll publishRelease released)
      (fun _ y => Settles p released x y) (fun _ _ => False) := by
  induction released generalizing x with
  | nil => exact Locked.pure ⟨rfl, rfl, hx.pool, rfl, Or.inl rfl⟩
  | cons old rest ih =>
    obtain rfl := hkey old List.mem_cons_self
    apply Locked.bind
    rw [publishRelease_eq]
    apply locked_lockPool F
    intro o ho
    apply (publishAfterLock_locked F hx rfl (hset old List.mem_cons_self) ho).mono _ (fun _ _ h => h)
    intro _ y hy
    apply (ih (hy.based hx) (fun r hr => hkey r (List.mem_cons_of_mem _ hr))
      (fun r hr => hset r (List.mem_cons_of_mem _ hr))).mono _ (fun _ _ h => h)
    exact fun _ z hz => hy.trans hz

end

structure Released (k : Key) (past : PoolState) (released : List Row) : Prop where
  nonempty : released ≠ []
  pool : ∀ r ∈ released, r.poolKey = k
  kind : released.length ≤ 1 ∨ ∀ r ∈ released, r.purpose = .reservation
  rows : (released.map Row.unclaimed).Sublist past.rows

structure Removed (released : List Row) (x y : PoolState) : Prop where
  present : ∀ r ∈ released, r.unclaimed ∈ x.rows
  rows : y.rows = x.rows.filter fun r => r.allocationKey ∉ released.map Row.allocationKey
  pool : y.pool = x.pool
  consumed : y.consumed = x.consumed

theorem Removed.based {k : Key} {p : Cidr} {released : List Row} {x y : PoolState} (h : Removed released x y)
    (hx : Based k p x) : Based k p y := by
  refine ⟨h.pool ▸ hx.pool, ?_⟩
  intro r hr
  rw [h.rows] at hr
  exact hx.rows r (List.mem_filter.mp hr).1

theorem find_cases (rows : List Row) (k : Key) (f : Row → Bool) :
    (∀ r ∈ (rows.find? f).toList, r.poolKey ≠ k) ∨
      ∃ r ∈ rows, r.poolKey = k ∧ (rows.find? f).toList = [r] := by
  cases h : rows.find? f with
  | none => exact Or.inl (by simp)
  | some r =>
    by_cases hr : r.poolKey = k
    · exact Or.inr ⟨r, List.mem_of_find?_eq_some h, hr, rfl⟩
    · exact Or.inl (by simpa using hr)

theorem select_cases (cond : DeleteCond) (k : Key) (s : Db) :
    (∀ r ∈ cond.select s.rows, r.poolKey ≠ k) ∨ Released k (s.poolState k) (cond.select s.rows) := by
  have hone : ∀ f : Row → Bool, (∀ r ∈ (s.rows.find? f).toList, r.poolKey ≠ k) ∨
      Released k (s.poolState k) (s.rows.find? f).toList := by
    intro f
    rcases find_cases s.rows k f with hnone | ⟨r, hr, hk, hfind⟩
    · exact Or.inl hnone
    · right
      rw [hfind]
      refine ⟨by simp, by simpa using hk, Or.inl le_rfl, ?_⟩
      apply List.singleton_sublist.mpr
      exact List.mem_map_of_mem (List.mem_filter.mpr ⟨hr, by simpa using hk⟩)
  cases cond with
  | claimKey key => exact hone _
  | allocationKey key => exact hone _
  | reservationsOf pool =>
    simp only [DeleteCond.select]
    have hmem : ∀ r ∈ s.rows.filter (fun r => decide (r.poolKey = pool) && decide (r.purpose = .reservation)),
        r.poolKey = pool ∧ r.purpose = .reservation := by
      intro r hr
      simpa using (List.mem_filter.mp hr).2
    by_cases hp : pool = k
    · subst hp
      by_cases hnil : (s.rows.filter fun r => decide (r.poolKey = pool) && decide (r.purpose = .reservation)) = []
      · exact Or.inl (by simp [hnil])
      · refine Or.inr ⟨hnil, fun r hr => (hmem r hr).1, Or.inr fun r hr => (hmem r hr).2, ?_⟩
        apply List.Sublist.map
        apply List.monotone_filter_right
        intro r hr
        simp only [Bool.and_eq_true] at hr
        exact hr.1
    · exact Or.inl fun r hr => (hmem r hr).1 ▸ hp

theorem foldl_deleteRow (k : Key) (released : List Row) (hk : ∀ r ∈ released, r.poolKey = k) (x : PoolState) :
    (released.map fun r => Effect.deleteRow r.poolKey r.allocationKey).foldl (fun x e => x.apply k e) x =
      { x with rows := x.rows.filter fun r => r.allocationKey ∉ released.map Row.allocationKey } := by
  induction released generalizing x with
  | nil => simp
  | cons old rest ih =>
    rw [List.map_cons, List.foldl_cons, ih fun r hr => hk r (List.mem_cons_of_mem _ hr)]
    simp only [PoolState.apply, hk old List.mem_cons_self, if_true, List.filter_filter]
    congr 1
    apply List.filter_congr
    intro r _
    simp only [List.map_cons, List.mem_cons, not_or, Bool.decide_and, ne_eq]
    rw [Bool.and_comm]

theorem foldl_setsFloor {k : Key} {es : List Effect} (h : ∀ e ∈ es, Effect.SetsFloor k e) (x : PoolState) :
    (es.foldl (fun x e => x.apply k e) x).rows = x.rows ∧ (es.foldl (fun x e => x.apply k e) x).pool = x.pool ∧
      (es.foldl (fun x e => x.apply k e) x).consumed = x.consumed := by
  induction es generalizing x with
  | nil => exact ⟨rfl, rfl, rfl⟩
  | cons e es ih =>
    obtain ⟨digest, floor, rfl⟩ := h e List.mem_cons_self
    rw [List.foldl_cons, apply_setFloor]
    exact ih (fun e he => h e (List.mem_cons_of_mem _ he)) _

theorem off_setClaimKey (k key : Key) (claim : Option Key) : Effect.Off k (.setClaimKey key claim) :=
  fun _ => rfl

theorem removed_view {k : Key} {log es : List Effect} {released : List Row} {s : Db}
    (hlog : ∀ e ∈ log, Effect.Off k e) (hpool : ∀ r ∈ released, r.poolKey = k)
    (hes : ∀ e ∈ es, Effect.SetsFloor k e) (hpresent : ∀ r ∈ released, r.unclaimed ∈ (s.poolState k).rows) :
    Removed released (s.poolState k) ((postgres.view
      (log ++ (released.map fun r => .deleteRow r.poolKey r.allocationKey) ++ es) s).poolState k) := by
  have hview : (postgres.view (log ++ (released.map fun r => .deleteRow r.poolKey r.allocationKey) ++ es) s).poolState
      k = es.foldl (fun x e => x.apply k e) { s.poolState k with
        rows := (s.poolState k).rows.filter fun r => r.allocationKey ∉ released.map Row.allocationKey } := by
    rw [postgres.view_append, postgres.view_append, poolState_view, poolState_view, poolState_view_off hlog,
      foldl_deleteRow k released hpool]
  obtain ⟨hrows, hpool', hconsumed⟩ := foldl_setsFloor hes { s.poolState k with
    rows := (s.poolState k).rows.filter fun r => r.allocationKey ∉ released.map Row.allocationKey }
  rw [hview]
  exact ⟨hpresent, hrows, hpool', hconsumed⟩

theorem mem_poolRows_of_rowsOf {k : Key} {s s' : Db} {r : Row} (hr : r ∈ s.poolRows k)
    (hkeep : s'.rowsOf r.allocationKey = s.rowsOf r.allocationKey) : r ∈ s'.poolRows k := by
  obtain ⟨o, ho, rfl⟩ := List.mem_map.mp hr
  obtain ⟨ho, hk⟩ := List.mem_filter.mp ho
  have hmem : o ∈ s.rowsOf o.unclaimed.allocationKey := List.mem_filter.mpr ⟨ho, by simp [Row.unclaimed]⟩
  rw [← hkeep] at hmem
  exact List.mem_map_of_mem (List.mem_filter.mpr ⟨(List.mem_filter.mp hmem).1, hk⟩)

section

variable {strict : Bool} {k : Key} {p : Cidr} {J : PoolState → Prop}

abbrev Rely (strict : Bool) (k : Key) (J : PoolState → Prop) : List Lock → Db → Db → Prop :=
  (rowLocking strict).Others (fun s => J (s.poolState k)) (.object k) (Same (Db.poolState k))

abbrev SafeOn (strict : Bool) (k : Key) (J : PoolState → Prop) : Tx Unit → List Effect → List Lock → Db → Prop :=
  (rowLocking strict).Safe (fun s => J (s.poolState k)) (.object k) (Same (Db.poolState k))

theorem rely_frozen : Frozen postgres (Rely strict k J) (.object k) (Db.poolState k) :=
  (rowLocking strict).frozen (poolState_respects k)

theorem safe_lockPool {f : Res (.lockObject k) → Tx Unit} {log : List Effect} {held : List Lock} {c : Db}
    (h : ∀ c', Rely strict k J held c c' → ((postgres.view log c').poolState k).pool ≠ none ∧
      ∀ o : Option Object, o.bind Object.asPool = ((postgres.view log c').poolState k).pool →
        Locked postgres (Rely strict k J) (.object k) (Db.poolState k) ((postgres.view log c').poolState k) (f o)
          (fun _ y => J y) (fun _ _ => True)) :
    SafeOn strict k J (Prog.call (.lockObject k) >>= f) log held c := by
  intro c' hc'
  obtain ⟨hpool, hlocked⟩ := h c' hc'
  have hobject : ((postgres.view log c').object k).isSome = true := by
    by_contra hnone
    exact hpool (pool_none_of_object (Option.not_isSome_iff_eq_none.mp hnone))
  have hlocks : postgres.locks (.lockObject k) (postgres.view log c') = [.object k] := if_pos hobject
  apply (rowLocking strict).safe_of_locked (fun _ _ => trivial) rely_frozen (hlocked _ (pool_eq_asPool _ k).symm)
  · rw [hlocks]
    exact List.mem_append_right _ List.mem_cons_self
  · rw [List.append_nil]

theorem safe_of_off {prog : Tx Unit} (h : Emits postgres (Effect.Off k) prog) {log : List Effect}
    {held : List Lock} {c : Db} (hlog : ∀ e ∈ log, Effect.Off k e) (hc : J (c.poolState k)) :
    SafeOn strict k J prog log held c := by
  apply Database.wp_mono ((rowLocking strict).wp_emits h hc)
  · rintro _ log' held' c' ⟨⟨es, rfl, hes⟩, -, -⟩ c'' hc''
    have hoff : ∀ e ∈ log ++ es, Effect.Off k e := by
      intro e he
      rcases List.mem_append.mp he with he | he
      · exact hlog e he
      · exact hes e he
    have hsame := poolState_view_off hoff c''
    have hJ : J ((postgres.view (log ++ es) c'').poolState k) := hsame ▸ hc''.inv
    exact ⟨hJ, Or.inr hsame, trivial⟩
  · exact fun _ _ _ _ _ => trivial

def Lowers (strict : Bool) (k : Key) (p : Cidr) (J : PoolState → Prop)
    (L : List Row → PoolState → PoolState → Prop) : Prop :=
  ∀ released log held c, (∀ r ∈ released, r.poolKey = k ∧ r.cidr.CutFrom p) → J (c.poolState k) → .deleted k ∈ held →
    (∀ e ∈ log, ∀ x, (PoolState.apply k e x).floors = x.floors) →
    postgres.wp (Rely strict k J)
      (fun _ log' held' c' =>
        (rowLocking strict).Extends (fun s => J (s.poolState k)) (.object k) (Same (Db.poolState k)) (Effect.SetsFloor k)
          log held c log' held' c' ∧
        ∀ c'', Rely strict k J held' c' c'' →
          L released (c''.poolState k) ((postgres.view log' c'').poolState k))
      (fun _ _ _ _ => True) (sendAll lowerSearchFloor released) log held c

theorem lowers_trivial : Lowers strict k p J fun _ _ _ => True := by
  intro released log held c hpool hc _ _
  have hemits : Emits postgres (Effect.SetsFloor k) (sendAll lowerSearchFloor released) :=
    emits_sendAll fun r hr => (hpool r hr).1 ▸ lowerSearchFloor_emits r
  apply Database.wp_mono ((rowLocking strict).wp_emits hemits hc)
  · exact fun _ _ _ _ h => ⟨h, fun _ _ => trivial⟩
  · exact fun _ _ _ _ h => h

theorem sendAll_release_off {released : List Row} (h : ∀ r ∈ released, r.poolKey ≠ k) :
    Emits postgres (Effect.Off k) (sendAll lowerSearchFloor released >>= fun _ => sendAll publishRelease released) := by
  apply Emits.bind
  · apply emits_sendAll
    intro r hr
    apply (lowerSearchFloor_emits r).mono
    rintro _ ⟨digest, floor, rfl⟩
    exact Effect.On.off rfl (h r hr)
  · intro _
    apply emits_sendAll
    intro r hr
    exact (publishRelease_emits r).mono fun _ he => he.off (h r hr)

variable {L : List Row → PoolState → PoolState → Prop} (hbased : ∀ x, J x → Based k p x)
  (hlower : Lowers strict k p J L)
  (hrelease : ∀ released past x y z, J past → Released k past released → J x → Removed released x y →
    L released x y → Settles p released y z → J z)

include hbased hlower hrelease

theorem released_safe {log : List Effect} (hoff : ∀ e ∈ log, Effect.Off k e) {held : List Lock} {c : Db}
    (hc : J (c.poolState k)) {released : List Row} (hreleased : Released k (c.poolState k) released) :
    SafeOn strict k J (sendAll lowerSearchFloor released >>= fun _ => sendAll publishRelease released)
      (log ++ released.map fun r => .deleteRow r.poolKey r.allocationKey)
      (held ++ released.flatMap fun r => .deleted r.poolKey :: rowLocks r) c := by
  have hdeleted : Lock.deleted k ∈ held ++ released.flatMap fun r => .deleted r.poolKey :: rowLocks r := by
    obtain ⟨r, hr⟩ := List.exists_mem_of_ne_nil _ hreleased.nonempty
    apply List.mem_append_right
    rw [← hreleased.pool r hr]
    exact List.mem_flatMap.mpr ⟨r, hr, List.mem_cons_self⟩
  have hfloors : ∀ e ∈ log ++ released.map (fun r => .deleteRow r.poolKey r.allocationKey),
      ∀ x, (PoolState.apply k e x).floors = x.floors := by
    intro e he x
    rcases List.mem_append.mp he with he | he
    · rw [hoff e he x]
    · obtain ⟨r, hr, rfl⟩ := List.mem_map.mp he
      simp only [PoolState.apply]
      split <;> rfl
  have hcut : ∀ r ∈ released, r.poolKey = k ∧ r.cidr.CutFrom p := by
    intro r hr
    have hmem := hreleased.rows.subset (List.mem_map_of_mem hr)
    exact ⟨hreleased.pool r hr, ((hbased _ hc).rows _ hmem).2⟩
  apply Database.wp_bind
  apply Database.wp_mono (hlower released _ _ c hcut hc hdeleted hfloors) _ fun _ _ _ _ h => h
  rintro _ _ _ c' ⟨⟨⟨es, rfl, hes⟩, ⟨ls, rfl⟩, hothers⟩, hL⟩
  -- the first released row locks the pool
  obtain ⟨old, rest, rfl⟩ := List.exists_cons_of_ne_nil hreleased.nonempty
  obtain rfl := hreleased.pool old List.mem_cons_self
  apply safe_lockPool (f := fun o => publishAfterLock old o >>= fun _ => sendAll publishRelease rest)
  intro c'' hc''
  have hall := Discipline.Others.trans _ hothers (Discipline.Others.weaken _ hc'')
  have hpresent : ∀ r ∈ old :: rest, r.unclaimed ∈ (c''.poolState old.poolKey).rows := by
    intro r hr
    apply mem_poolRows_of_rowsOf (hreleased.rows.subset (List.mem_map_of_mem hr))
    apply hall.agree (.row r.allocationKey)
    apply List.mem_append_right
    exact List.mem_flatMap.mpr ⟨r, hr, List.mem_cons_of_mem _ (mem_rowLocks r)⟩
  have hremoved := removed_view hoff hreleased.pool hes hpresent
  have hx := hbased _ hc''.inv
  have hy := hremoved.based hx
  have hset : ∀ r ∈ old :: rest, Settled p r.cidr := fun r hr => (hx.rows _ (hpresent r hr)).2.settled
  constructor
  · exact hy.pool_ne_none
  · intro o ho
    apply Locked.bind
    apply (publishAfterLock_locked rely_frozen hy rfl (hset old List.mem_cons_self) ho).mono _ fun _ _ h => h.elim
    intro _ z hz
    apply (publishReleases_locked rely_frozen (hz.based hy)
      (fun r hr => hreleased.pool r (List.mem_cons_of_mem _ hr))
      (fun r hr => hset r (List.mem_cons_of_mem _ hr))).mono _ fun _ _ h => h.elim
    intro _ w hw
    exact hrelease _ _ _ _ w hc hreleased hc''.inv hremoved (hL c'' hc'') (hz.trans hw)

theorem deleteAllocations_safe {log : List Effect} (hlog : ∀ e ∈ log, ∃ key claim, e = .setClaimKey key claim)
    {held : List Lock} {c : Db} (cond : DeleteCond) : SafeOn strict k J (deleteAllocations cond) log held c := by
  intro c₁ hc₁
  have hoff : ∀ e ∈ log, Effect.Off k e := by
    intro e he
    obtain ⟨key, claim, rfl⟩ := hlog e he
    exact off_setClaimKey k key claim
  obtain ⟨released, hselect⟩ : ∃ released, cond.select (postgres.view log c₁).rows = released := ⟨_, rfl⟩
  suffices hsafe : SafeOn strict k J
      (sendAll lowerSearchFloor released >>= fun _ => sendAll publishRelease released)
      (log ++ released.map fun r => .deleteRow r.poolKey r.allocationKey)
      (held ++ released.flatMap fun r => .deleted r.poolKey :: rowLocks r) c₁ by
    rw [← hselect] at hsafe
    exact hsafe
  have hcases := select_cases cond k (postgres.view log c₁)
  rw [hselect, poolState_view_off hoff] at hcases
  rcases hcases with hother | hreleased
  · apply safe_of_off (sendAll_release_off hother) _ hc₁.inv
    intro e he
    rcases List.mem_append.mp he with he | he
    · exact hoff e he
    · obtain ⟨r, hr, rfl⟩ := List.mem_map.mp he
      exact Effect.On.off rfl (hother r hr)
  · exact released_safe hbased hlower hrelease hoff hc₁.inv hreleased

end

end Ipam.Allocator
