import Ipam.Allocator.Consistency
import Ipam.Registry.DryRun

namespace Ipam.Registry

open Allocation Allocator Cascade Database Transaction

def refused {α : Type} (p : Tx α) (s : Db) : Bool :=
  match postgres.run p s with
  | .ok _ => false
  | .error _ => true

structure PoolDelete where
  project : String
  name : String
  admitted : Bool
  dryRun : List String
  deriving DecidableEq, Repr

def PoolDelete.key (req : PoolDelete) : Key :=
  poolStorageKey req.project req.name

def PoolDelete.handle (req : PoolDelete) : Handler Unit :=
  deletePool req.project req.name req.admitted req.dryRun

def PoolDelete.vacated (req : PoolDelete) (s : Db) : Option IPPool :=
  (s.pool req.key).filter fun _ =>
    req.admitted && s.rows.all fun r => r.poolKey ≠ req.key || r.purpose = .reservation

def reserves (key : Key) (s : Db) : Bool :=
  s.rows.any fun r => r.poolKey = key && r.purpose = .reservation

def namesDisagree (project : String) (names : List String) (s : Db) : Bool :=
  1 < names.length && firstDisagreement
    (names.flatMap fun name => ((asClass (s.object (classStorageKey project name))).bind offeredSpace).toList)

def createQuiet (emptyDigest : String) (req : PoolRequest) (s : Db) : Bool :=
  match req.pool.parentPoolRef with
  | none => true
  | some parent =>
    namesDisagree req.project req.pool.classNames s || refused (createChildPool emptyDigest req parent) s

def deleteQuiet (req : PoolDelete) (s : Db) : Bool :=
  match req.vacated s with
  | none => true
  | some pool =>
    match pool.parentPoolRef with
    | none => !reserves req.key s || refused (releasePoolReservations req.key) s
    | some _ => refused (deleteChildPool req.key) s

section

variable {s : Db}

theorem refused_iff {α : Type} (p : Tx α) : refused p s = true ↔ ∃ e, postgres.record p [] s = .error e := by
  have hrun := postgres.run_eq_record p [] s
  simp only [refused]
  cases hp : postgres.record p [] s with
  | error e =>
    have hfail : postgres.run p s = .error e := by
      rw [hp] at hrun
      exact hrun
    simp [hfail]
  | ok r =>
    have hok : postgres.run p s = .ok (r.1, postgres.view r.2 s) := by
      rw [hp] at hrun
      exact hrun
    simp [hok]

theorem not_refused {α : Type} {p : Tx α} (h : postgres.Succeeds s p) : refused p s = false := by
  obtain ⟨a, s', hrun⟩ := h
  simp only [refused, hrun]

theorem untouched_of_silent {α : Type} {m : Handler α} (h : (m s).2 = []) : Untouched m s := by
  refine ⟨?_, by simp [h]⟩
  simp only [Request.after, h]
  rfl

theorem transact_untouched {α : Type} {p : Tx α} (h : postgres.After s p fun _ s' => s' ≠ s) :
    Untouched (Request.transact p : Handler α) s ↔ refused p s = true := by
  rw [refused_iff]
  constructor
  · intro hsame
    cases hp : postgres.record p [] s with
    | error e => exact ⟨e, rfl⟩
    | ok r =>
      have hrun := postgres.run_eq_record p [] s
      rw [hp] at hrun
      have hafter : (Request.transact p : Handler α).after s = postgres.view r.2 s := by
        simp only [Request.after, Request.transact, hp]
      exact absurd (hafter.symm.trans hsame.1) (h r.1 _ hrun)
  · rintro ⟨e, he⟩
    exact untouched_of_silent (by rw [Request.transact_error he])

theorem createChildPool_changes (emptyDigest : String) (req : PoolRequest) (parent : String) :
    postgres.After s (createChildPool emptyDigest req parent) fun _ s' => s' ≠ s := by
  have hstored : postgres.After s (createChildPool emptyDigest req parent) fun _ s' =>
      s.ledger.objects req.key = none ∧ s'.ledger.objects req.key ≠ none := by
    simp only [createChildPool]
    split
    · exact .throw
    split
    · exact .throw
    apply Database.After.bind
    apply Strategy.get_after
    intro o parentPool _ _
    apply Database.After.bind
    apply Database.After.ofOption
    intro _ _
    apply Database.After.bind
    refine (allocatePrefix_after _).mono ?_
    rintro cidr s₁ ⟨mid, pool, block, h⟩
    have hobjects : s₁.ledger.objects = s.ledger.objects := by
      obtain ⟨range, -, hmid⟩ := h.reserved
      rw [h.ledger]
      exact hmid.reserves.objects.1
    apply Database.After.bind
    refine (insertObject_after _ _).mono ?_
    rintro _ s₂ ⟨habsent, h₂⟩
    refine .pure ⟨hobjects ▸ habsent, ?_⟩
    rw [h₂]
    simp [Ledger.put]
  refine hstored.mono ?_
  rintro _ s' ⟨hnone, hsome⟩ rfl
  exact hsome hnone

theorem deleteChildPool_changes {k : Key} (h : s.object k ≠ none) :
    postgres.After s (deleteChildPool k) fun _ s' => s' ≠ s := by
  have hgone : postgres.After s (deleteChildPool k) fun _ s' => s'.object k = none := by
    apply Database.After.bind
    intro _ s₁ _
    apply Database.After.bind
    intro _ s₂ _
    refine (deleteObject_after k).mono ?_
    rintro _ s' ⟨-, hs'⟩
    apply ledger_object_none.mp
    rw [hs']
    simp [Ledger.remove]
  refine hgone.mono ?_
  rintro _ s' hnone rfl
  exact h hnone

theorem releasePoolReservations_changes {k : Key} {r : Row} (hr : r ∈ s.rows) (hk : r.poolKey = k)
    (hp : r.purpose = .reservation) : postgres.After s (releasePoolReservations k) fun _ s' => s' ≠ s := by
  refine (deleteAllocations_ledger (.reservationsOf k)).mono ?_
  rintro _ s' hs' rfl
  have hmem : r ∈ s'.ledger.rows := hr
  rw [hs'] at hmem
  have hkept := (List.mem_filter.mp hmem).2
  have hselect : r ∈ DeleteCond.select (.reservationsOf k) s'.rows :=
    List.mem_filter.mpr ⟨hr, by simp [hk, hp]⟩
  simp only [Bool.not_eq_true', List.any_eq_false] at hkept
  exact hkept r hselect (by simp)

theorem releasePoolReservations_silent {k : Key}
    (h : (s.rows.any fun r => r.poolKey = k && r.purpose = .reservation) = false) :
    ((Request.transact (releasePoolReservations k) : Handler Unit) s).2 = [] := by
  have hselect : DeleteCond.select (.reservationsOf k) s.rows = [] := by
    refine List.filter_eq_nil_iff.mpr fun r hr => ?_
    exact List.any_eq_false.mp h r hr
  have hrecord : postgres.record (releasePoolReservations k) [] s = .ok ((), []) := by
    have hexec : postgres.exec (.deleteAllocations (.reservationsOf k)) (postgres.view [] s) = .ok ([], []) := by
      change Except.ok (DeleteCond.select (.reservationsOf k) s.rows,
        (DeleteCond.select (.reservationsOf k) s.rows).map _) = _
      rw [hselect]
      rfl
    simp only [releasePoolReservations, deleteAllocations]
    change postgres.record (Prog.step (.deleteAllocations (.reservationsOf k)) _) [] s = _
    simp only [Database.record, hexec]
    rfl
  rw [Request.transact_ok hrecord]

theorem untouched_congr {α β : Type} {m : Handler α} {m' : Handler β} (h : (m s).2 = (m' s).2) :
    Untouched m s ↔ Untouched m' s := by
  simp only [Untouched, Request.after, h]

theorem offeredSpaces_run (project : String) (names : List String) :
    postgres.run (offeredSpaces project names) s = .ok (names.flatMap fun name =>
      ((asClass (s.object (classStorageKey project name))).bind offeredSpace).toList, s) := by
  induction names with
  | nil => rfl
  | cons name rest ih =>
    change postgres.run (Prog.bind (offeredSpaces project rest) _) s = _
    rw [Database.run_bind, ih]
    rfl

theorem validateClassOffers_run (project : String) (pool : IPPool) :
    postgres.run (validateClassOffers project pool) s =
      if namesDisagree project pool.classNames s then .error .invalid else .ok ((), s) := by
  simp only [validateClassOffers, namesDisagree]
  by_cases hshort : pool.classNames.length < 2
  · have hone : ¬ 1 < pool.classNames.length := by omega
    simp only [hshort, hone, if_true, decide_false, Bool.false_and]
    rfl
  · have hmany : 1 < pool.classNames.length := by omega
    simp only [hshort, hmany, if_false, decide_true, Bool.true_and]
    refine (postgres.run_bind _ _ s).trans ?_
    rw [offeredSpaces_run]
    simp only [Except.bind]
    split <;> rfl

theorem persist_silent {α : Type} {dryRun : List String} (hdry : isDryRun dryRun = true) (p : Tx α) :
    ((persist dryRun p : Handler α) s).2 = [] := by
  simp only [persist, hdry, if_true]
  exact rollback_silent p s

theorem createPool_untouched (emptyDigest : String) (req : PoolRequest) (hdry : isDryRun req.dryRun = true) :
    Untouched (createPool emptyDigest req) s ↔ createQuiet emptyDigest req s = true := by
  simp only [createPool, createQuiet]
  have hoffers := fun m : Handler IPPool =>
    Request.rollback_bind_run (validateClassOffers req.project req.pool) (fun _ => m) s
  simp only [validateClassOffers_run] at hoffers
  cases hparent : req.pool.parentPoolRef with
  | none =>
    simp only [iff_true]
    apply untouched_of_silent
    exact bind_silent _ (fun _ s => bind_silent _ (fun _ s => persist_silent hdry _) s) s
  | some parent =>
    have hchild := transact_untouched (createChildPool_changes (s := s) emptyDigest req parent)
    cases hdisagree : namesDisagree req.project req.pool.classNames s with
    | true =>
      simp only [hdisagree, if_true] at hoffers
      simp only [Bool.true_or, iff_true]
      exact untouched_of_silent (by rw [hoffers])
    | false =>
      simp only [hdisagree] at hoffers
      simp only [Bool.false_or]
      exact (untouched_congr (by rw [hoffers]; rfl)).trans hchild

theorem checkPoolEmpty_run (req : PoolDelete) :
    match req.vacated s with
    | none => ∃ e, postgres.run (checkPoolEmpty req.key req.admitted) s = .error e
    | some pool => postgres.run (checkPoolEmpty req.key req.admitted) s = .ok (pool, s) := by
  simp only [PoolDelete.vacated, pool_eq_asPool]
  cases hpool : (s.object req.key).bind Object.asPool with
  | none =>
    refine ⟨.objectNotFound, ?_⟩
    change postgres.run (Prog.bind (Prog.ofOption _ ((s.object req.key).bind Object.asPool)) _) s = _
    rw [hpool]
    rfl
  | some pool =>
    have hrun : postgres.run (checkPoolEmpty req.key req.admitted) s =
        postgres.run (if ¬ req.admitted then .throw .forbidden
          else if (s.rows.filter fun r => r.poolKey = req.key && r.purpose ≠ .reservation) ≠ [] then .throw .conflict
          else pure pool) s := by
      change postgres.run (Prog.bind (Prog.ofOption _ ((s.object req.key).bind Object.asPool)) _) s = _
      rw [hpool]
      rfl
    rw [hrun]
    cases req.admitted with
    | false => exact ⟨.forbidden, rfl⟩
    | true =>
      have hall : (s.rows.all fun r => r.poolKey ≠ req.key || r.purpose = .reservation) = true ↔
          (s.rows.filter fun r => r.poolKey = req.key && r.purpose ≠ .reservation) = [] := by
        simp [imp_iff_not_or]
      by_cases hfree : (s.rows.filter fun r => r.poolKey = req.key && r.purpose ≠ .reservation) = []
      · simp only [hfree, Option.filter, hall.mpr hfree]
        rfl
      · simp only [Option.filter, Bool.eq_false_iff.mpr (mt hall.mp hfree), if_pos hfree]
        exact ⟨.conflict, rfl⟩

theorem PoolDelete.vacated_spec {req : PoolDelete} {pool : IPPool} (h : req.vacated s = some pool) :
    s.object req.key ≠ none ∧ ∀ r ∈ s.rows, r.poolKey = req.key → r.purpose = .reservation := by
  obtain ⟨hpool, hfree⟩ := Option.filter_eq_some_iff.mp h
  constructor
  · intro hnone
    rw [pool_eq_asPool, hnone] at hpool
    cases hpool
  simp only [Bool.and_eq_true, List.all_eq_true, Bool.or_eq_true, decide_eq_true_eq] at hfree
  exact fun r hr hk => (hfree.2 r hr).resolve_left (not_not_intro hk)

theorem deleteRootPool_untouched (req : PoolDelete) (hdry : isDryRun req.dryRun = true) :
    Untouched (((Request.transact (releasePoolReservations req.key) : Handler Unit) >>= fun _ =>
        persist req.dryRun (ipPoolStrategy.delete req.key req.admitted)) : Handler Unit) s ↔
      (!reserves req.key s || refused (releasePoolReservations req.key) s) = true := by
  have hdelete : (((Request.transact (releasePoolReservations req.key) : Handler Unit) >>= fun _ =>
      persist req.dryRun (ipPoolStrategy.delete req.key req.admitted)) s).2 =
      ((Request.transact (releasePoolReservations req.key) : Handler Unit) s).2 :=
    bind_silent _ (fun _ s => persist_silent hdry _) s
  refine (untouched_congr hdelete).trans ?_
  cases hheld : reserves req.key s with
  | false =>
    simp only [Bool.not_false, Bool.true_or, iff_true]
    exact untouched_of_silent (releasePoolReservations_silent hheld)
  | true =>
    obtain ⟨row, hrow, hmatch⟩ := List.any_eq_true.mp hheld
    simp only [Bool.and_eq_true, decide_eq_true_eq] at hmatch
    simp only [Bool.not_true, Bool.false_or]
    exact transact_untouched (releasePoolReservations_changes hrow hmatch.1 hmatch.2)

theorem deletePool_untouched (req : PoolDelete) (hdry : isDryRun req.dryRun = true) :
    Untouched req.handle s ↔ deleteQuiet req s = true := by
  have hcheck := @checkPoolEmpty_run s req
  have heffects := fun f : IPPool → Handler Unit =>
    Request.rollback_bind_run (checkPoolEmpty req.key req.admitted) f s
  simp only [deleteQuiet]
  cases hpool : req.vacated s with
  | none =>
    simp only [hpool] at hcheck
    obtain ⟨e, hrun⟩ := hcheck
    simp only [hrun] at heffects
    simp only [iff_true]
    exact untouched_of_silent (congrArg Prod.snd (heffects _))
  | some pool =>
    simp only [hpool] at hcheck
    simp only [hcheck] at heffects
    refine (untouched_congr (congrArg Prod.snd (heffects _))).trans ?_
    cases hparent : pool.parentPoolRef with
    | some parent =>
      simp only [hparent]
      exact transact_untouched (deleteChildPool_changes (PoolDelete.vacated_spec hpool).1)
    | none =>
      simp only [hparent]
      exact deleteRootPool_untouched req hdry

theorem release_succeeds (hs : Consistent s.ledger) (k : Key) : postgres.Succeeds s (release k) := by
  have hretained : Consistent (postgres.view (((s.rows.filter (Row.retained k)).map Row.allocationKey).map
      fun k => Effect.setClaimKey k none) s).ledger :=
    ((ledger_clearKeys _ s).trans (retain_eq hs.keyed k)).symm ▸ hs.retain k
  refine .step rfl ?_
  change postgres.Succeeds _ (deleteAllocations (.claimKey k) >>= fun _ => Prog.pure _)
  exact Database.Succeeds.bind (deleteAllocations_succeeds hretained _) fun _ _ _ => .pure _

theorem deleteChildPool_succeeds {k : Key} (hs : Consistent s.ledger)
    (hfree : ∀ r ∈ s.rows, r.poolKey = k → r.purpose = .reservation) : postgres.Succeeds s (deleteChildPool k) := by
  refine Database.Succeeds.bind (deleteAllocations_succeeds hs _) ?_
  refine (deleteAllocations_after hs.keyed _).mono ?_
  intro _ s₁ h₁
  have hs₁ : Consistent s₁.ledger := h₁ ▸ hs.drop _
  refine Database.Succeeds.bind (release_succeeds hs₁ k) ?_
  refine (release_after hs₁.keyed k).mono ?_
  rintro _ s₂ ⟨-, h₂⟩
  refine deleteObject_succeeds fun r hr hk => ?_
  have hkept : r ∈ s₂.ledger.rows := hr
  rw [h₂] at hkept
  obtain ⟨o, ho, rfl⟩ := List.mem_map.mp (List.mem_filter.mp hkept).1
  rw [h₁] at ho
  obtain ⟨ho, hmatch⟩ := List.mem_filter.mp ho
  have hpool : o.poolKey = k := by
    split at hk <;> exact hk
  simp [DeleteCond.matches, hpool, hfree o ho hpool] at hmatch

/-- Tables that meet their constraints refuse no release, so that a delete is quiet by what it finds. -/
theorem deleteQuiet_iff (hs : Consistent s.ledger) (req : PoolDelete) : deleteQuiet req s = true ↔
    ∀ pool, req.vacated s = some pool → pool.parentPoolRef = none ∧ reserves req.key s = false := by
  simp only [deleteQuiet]
  cases hpool : req.vacated s with
  | none => simp
  | some pool =>
    have hchild := not_refused (deleteChildPool_succeeds hs (PoolDelete.vacated_spec hpool).2)
    have hroot := not_refused (deleteAllocations_succeeds hs (.reservationsOf req.key))
    cases hparent : pool.parentPoolRef with
    | none => simp [hparent, releasePoolReservations, hroot]
    | some parent => simp [hparent, hchild]

end

/-- A dry run of a pool request leaves the tables alone unless it reaches a transaction that it does not roll
back: the creation or deletion of a child pool, or the release of a root pool's reservations. -/
theorem poolRequest_dryRun_iff (emptyDigest : String) (s : Db) (create : PoolRequest) (delete : PoolDelete)
    (hcreate : isDryRun create.dryRun = true) (hdelete : isDryRun delete.dryRun = true) :
    (Untouched (createPool emptyDigest create) s ↔ createQuiet emptyDigest create s = true) ∧
      (Untouched delete.handle s ↔ deleteQuiet delete s = true) :=
  ⟨createPool_untouched emptyDigest create hcreate, deletePool_untouched delete hdelete⟩

def officeRequest (parent : Option String) (dryRun : List String) : PoolRequest where
  project := "infra"
  name := if parent.isNone then "office" else "desk"
  pool :=
    { poolOf officePool .firstFit with
      cidr := if parent.isNone then some officePool.net else none
      ipFamily := if parent.isNone then some .v4 else none
      parentPoolRef := parent
      prefixLength := if parent.isNone then 0 else 28
      allocatedCIDR := none }
  admitted := true
  dryRun := dryRun

def officeDelete (name : String) : PoolDelete := ⟨"infra", name, true, ["All"]⟩

def officeDb : Db :=
  (createPool "" (officeRequest none [])).after Db.empty

def deskDb : Db :=
  (createPool "" (officeRequest (some "office") [])).after officeDb

theorem poolRequest_dryRun_office :
    Untouched (createPool "" (officeRequest none ["All"])) deskDb ∧ ¬ Untouched (officeDelete "desk").handle deskDb := by
  obtain ⟨hcreate, hdelete⟩ :=
    poolRequest_dryRun_iff "" deskDb (officeRequest none ["All"]) (officeDelete "desk") rfl rfl
  have hquiet : createQuiet "" (officeRequest none ["All"]) deskDb = true := by decide +kernel
  have hloud : deleteQuiet (officeDelete "desk") deskDb = false := by decide +kernel
  refine ⟨hcreate.mpr hquiet, fun huntouched => ?_⟩
  rw [hdelete.mp huntouched] at hloud
  cases hloud

def hasDesk (s : Db) : Bool :=
  (s.pool (poolStorageKey "infra" "desk")).isSome

theorem poolRequest_dryRun_commits :
    ¬ Untouched (createPool "" (officeRequest (some "office") ["All"])) officeDb ∧
      ¬ Untouched (officeDelete "desk").handle deskDb := by
  constructor
  · rintro ⟨hsame, -⟩
    have hcreated : hasDesk ((createPool "" (officeRequest (some "office") ["All"])).after officeDb) = true := by
      decide +kernel
    have habsent : hasDesk officeDb = false := by decide +kernel
    rw [hsame, habsent] at hcreated
    cases hcreated
  · rintro ⟨hsame, -⟩
    have hgone : hasDesk ((officeDelete "desk").handle.after deskDb) = false := by decide +kernel
    have hstored : hasDesk deskDb = true := by decide +kernel
    rw [hsame, hstored] at hgone
    cases hgone

end Ipam.Registry
