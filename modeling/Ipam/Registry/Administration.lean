import Ipam.Registry.Changes

namespace Ipam.Registry

open Allocation Allocator Cascade Database Transaction

section

variable {hash : Scope.Text → String} {s : Db} {a : Action}

def OneChange (hash : Scope.Text → String) (a : Action) (L L' : Ledger) : Prop :=
  L' = L ∨ Change hash L a L'

theorem OneChange.changes {L L' : Ledger} (h : OneChange hash a L L') : Changes hash a L L' := by
  cases h with
  | inl hsame => exact hsame ▸ .refl
  | inr hchange => exact .single hchange

theorem persist_changes {α : Type} {dryRun : List String} {p : Tx α}
    (hp : postgres.After s p fun _ s' => OneChange hash a s.ledger s'.ledger) :
    Request.Ensures s (persist dryRun p) fun _ s' => Changes hash a s.ledger s'.ledger :=
  persist_ensures .refl (hp.mono fun _ _ h => h.changes)

theorem transact_changes {α : Type} {p : Tx α}
    (hp : postgres.After s p fun _ s' => OneChange hash a s.ledger s'.ledger) :
    Request.Ensures s (Request.transact p : Handler α) fun _ s' => Changes hash a s.ledger s'.ledger :=
  .transact (hp.mono fun _ _ h => h.changes) fun _ => .refl

section

variable {T : Type} {S : Strategy T} {tenant : String} {key : Key} {obj : T} {admitted forceAllowCreate : Bool}
  {check : T → Tx Unit}

theorem create_ledger :
    postgres.After s (S.create tenant key obj admitted) fun _ s' =>
      S.validate (keyName key) (S.prepareForCreate obj) = true ∧ s.ledger.objects key = none ∧
        s'.ledger = s.ledger.put key (S.encode (S.prepareForCreate obj)).core := by
  refine Strategy.create_after.mono ?_
  rintro new s' ⟨rfl, hvalid, habsent, rfl⟩
  exact ⟨hvalid, ledger_object_none.mpr habsent, ledger_apply (.putObject key _) s⟩

theorem update_ledger (hcheck : ∀ new, postgres.After s (check new) fun _ s' => s' = s) :
    postgres.After s (S.update tenant key obj forceAllowCreate admitted check) fun _ s' =>
      s'.ledger = s.ledger ∨
        (forceAllowCreate = true ∧ S.validate (keyName key) (S.prepareForCreate obj) = true ∧
          s.ledger.objects key = none ∧ s'.ledger = s.ledger.put key (S.encode (S.prepareForCreate obj)).core) ∨
        ∃ o old, s.object key = some o ∧ S.decode o = some old ∧
          S.validateUpdate (keyName key) (S.prepareForUpdate obj old) old = true ∧
          s'.ledger = s.ledger.put key (S.encode (S.prepareForUpdate obj old)).core := by
  refine (Strategy.update_after hcheck).mono ?_
  rintro new s' (⟨hforce, rfl, hvalid, habsent, rfl⟩ | ⟨⟨o, old, ho, hdecode, rfl, hvalid⟩, hs'⟩)
  · exact .inr (.inl ⟨hforce, hvalid, ledger_object_none.mpr habsent, ledger_apply (.putObject key _) s⟩)
  · cases hs' with
    | inl hsame => exact .inl (congrArg Db.ledger hsame)
    | inr hput =>
      rw [hput]
      exact .inr (.inr ⟨o, old, ho, hdecode, hvalid, ledger_apply (.putObject key _) s⟩)

theorem delete_ledger :
    postgres.After s (S.delete key admitted) fun _ s' =>
      (∃ o obj, s.object key = some o ∧ S.decode o = some obj) ∧ (∀ r ∈ s.rows, r.poolKey ≠ key) ∧
        s'.ledger = s.ledger.remove key := by
  refine Strategy.delete_after.mono ?_
  rintro _ s' ⟨hstored, hfree, rfl⟩
  exact ⟨hstored, hfree, ledger_apply (.removeObject key) s⟩

end

theorem createClass_changes (req : ClassRequest) :
    Request.Ensures s (createClass req) fun _ s' => Changes hash (.createClass req) s.ledger s'.ledger := by
  apply Request.Ensures.bind
  apply Request.Ensures.ofExcept _ fun _ => .refl
  intro _ _
  apply Request.Ensures.bind
  apply Request.Ensures.rollback _ fun _ => .refl
  intro _ _ _
  apply persist_changes
  refine create_ledger.mono ?_
  rintro _ s' ⟨hvalid, habsent, hput⟩
  rw [hput]
  exact .inr (.createClass hvalid habsent)

theorem class_of_decode {key : Key} {o : Object} {c : IPClass} (ho : s.object key = some o)
    (h : ipClassStrategy.decode o = some c) : s.ledger.objects key = some (.class_ c) := by
  cases o with
  | class_ c' =>
    obtain rfl := Option.some.inj h
    simp only [Db.ledger, ho]
    rfl
  | pool | claim | allocation => cases h

theorem updateClass_changes (req : ClassRequest) (forceAllowCreate : Bool) :
    Request.Ensures s (updateClass req forceAllowCreate) fun _ s' =>
      Changes hash (.updateClass req forceAllowCreate) s.ledger s'.ledger := by
  apply persist_changes
  refine (update_ledger fun _ => .pure rfl).mono ?_
  rintro _ s' (hsame | ⟨rfl, hvalid, habsent, hput⟩ | ⟨o, old, ho, hdecode, hvalid, hput⟩)
  · exact .inl hsame
  · rw [hput]
    exact .inr (.forceClass hvalid habsent)
  · rw [hput]
    exact .inr (.updateClass (class_of_decode ho hdecode) hvalid)

theorem deleteClass_changes (project name : String) (admitted : Bool) (dryRun : List String) :
    Request.Ensures s (deleteClass project name admitted dryRun) fun _ s' =>
      Changes hash (.deleteClass project name admitted dryRun) s.ledger s'.ledger := by
  apply persist_changes
  refine delete_ledger.mono ?_
  rintro _ s' ⟨-, hempty, hremove⟩
  rw [hremove]
  exact .inr (.removeClass hempty)

theorem unchanged_of_reads {α : Type} {p : Tx α} (h : Emits postgres (fun _ => False) p) :
    postgres.After s p fun _ s' => s' = s :=
  Database.After.keeps (Keeps.of_emits h fun _ h => h.elim)

theorem pool_of_decode {key : Key} {o : Object} {pool : IPPool} (ho : s.object key = some o)
    (h : ipPoolStrategy.decode o = some pool) : s.ledger.objects key = some (.pool pool.core) := by
  apply stored_of_asPool
  rw [ho]
  exact h

theorem core_setPoolStatusCapacity (pool : IPPool) (parents : List IPNet) :
    (setPoolStatusCapacity pool parents).core = pool.core := by
  simp only [setPoolStatusCapacity]
  split
  · rfl
  · rfl

theorem validateNoRootOverlap_after (req : PoolRequest) (hroot : req.pool.parentPoolRef = none) :
    postgres.After s (validateNoRootOverlap req.project req.name req.pool) fun _ _ => RootApart s.ledger req := by
  cases hcidr : req.pool.cidr with
  | none =>
    intro _ _ _ _ namespace_ name pool range candidate _ _ _ _ hcandidate
    rw [hcidr] at hcandidate
    cases hcandidate
  | some candidate =>
    simp only [validateNoRootOverlap, hroot, hcidr]
    apply select_after
    split
    · exact .throw
    rename_i hapart
    apply Database.After.pure
    intro hsees namespace_ name pool range candidate' hstored hne hpool hrange hcandidate
    rw [hcidr] at hcandidate
    obtain rfl := Option.some.inj hcandidate
    obtain ⟨o, ho, hcore⟩ := Option.map_eq_some_iff.mp hstored
    cases o with
    | pool p =>
      obtain rfl : p.core = pool := by simpa [Object.core] using hcore
      have hmem := Tenant.mem_tenantRootPoolCIDRs hsees (mem_of_lookup ho) hne hpool hrange
      simp only [List.any_eq_true, not_exists, not_and] at hapart
      simpa using hapart (name, range) hmem
    | class_ | claim | allocation => cases hcore

theorem createChildPool_after (ed : String) (req : PoolRequest) (parent : String) :
    postgres.After s (createChildPool ed req parent) fun _ s' =>
      validateIPPool (preparePoolForCreate req.pool) = true ∧ ∃ mid carved pool block b,
        Taken ed (poolStorageKey req.project parent) ed (preparePoolForCreate req.pool).prefixLength
          ((req.prefixRequest parent).row ed) s.ledger mid carved pool block b ∧ carved.objects req.key = none ∧
        s'.ledger = carved.put req.key (.pool { preparePoolForCreate req.pool with allocatedCIDR := some b }.core) := by
  simp only [createChildPool]
  split
  · exact .throw
  rename_i hvalid
  split
  · exact .throw
  apply Database.After.bind
  refine (unchanged_of_reads (poolGet_emits _)).mono ?_
  intro parentPool s₀ hs₀
  rw [hs₀]
  apply Database.After.bind
  apply Database.After.ofOption
  intro _ _
  apply Database.After.bind
  refine (allocatePrefix_after (req.prefixRequest parent)).mono ?_
  rintro b s₁ ⟨mid, pool, block, htaken⟩
  apply Database.After.bind
  refine (insertObject_after req.key _).mono ?_
  rintro _ s₂ ⟨habsent, hput⟩
  refine .pure ⟨by simpa using hvalid, mid, _, pool, block, b, htaken, habsent, ?_⟩
  rw [hput]
  simp only [Object.core, core_setPoolStatusCapacity]

theorem createPool_changes (req : PoolRequest) :
    Request.Ensures s (createPool (emptyAddressSpaceDigest hash) req) fun _ s' =>
      Changes hash (.createPool req) s.ledger s'.ledger := by
  apply Request.Ensures.bind
  apply Request.Ensures.rollback _ fun _ => .refl
  intro _ _ _
  cases hparent : req.pool.parentPoolRef with
  | none =>
    apply Request.Ensures.bind
    apply Request.Ensures.rollback _ fun _ => .refl
    refine (validateNoRootOverlap_after req hparent).mono ?_
    intro _ _ hapart
    apply persist_changes
    refine create_ledger.mono ?_
    rintro _ s' ⟨hvalid, habsent, hput⟩
    rw [hput]
    exact .inr (.createRoot hparent hapart hvalid habsent)
  | some parent =>
    apply transact_changes
    refine (createChildPool_after _ req parent).mono ?_
    rintro _ s' ⟨hvalid, mid, carved, pool, block, b, htaken, habsent, hput⟩
    rw [hput]
    exact .inr (.authorChild hparent hvalid htaken habsent)

theorem updatePool_changes (req : PoolRequest) (forceAllowCreate : Bool) :
    Request.Ensures s (updatePool req forceAllowCreate) fun _ s' =>
      Changes hash (.updatePool req forceAllowCreate) s.ledger s'.ledger := by
  apply persist_changes
  refine (update_ledger fun new => unchanged_of_reads (validateClassOffers_emits req.project new)).mono ?_
  rintro _ s' (hsame | ⟨rfl, hvalid, habsent, hput⟩ | ⟨o, old, ho, hdecode, hvalid, hput⟩)
  · exact .inl hsame
  · rw [hput]
    exact .inr (.forcePool hvalid habsent)
  · rw [hput]
    -- The update neither checks nor sets what a pool publishes.
    have hchange : Change hash s.ledger (.updatePool req forceAllowCreate)
        (s.ledger.put req.key (.pool (ipPoolStrategy.prepareForUpdate req.pool old.core).core)) :=
      .updatePool (pool_of_decode ho hdecode) hvalid
    exact .inr hchange

theorem checkPoolEmpty_found (key : Key) (admitted : Bool) :
    postgres.After s (checkPoolEmpty key admitted) fun pool _ =>
      s.ledger.objects key = some (.pool pool.core) ∧ ∀ r ∈ s.rows, r.poolKey = key → r.purpose = .reservation := by
  apply Database.After.bind
  apply Strategy.get_after
  intro o pool ho hdecode
  apply Database.After.step
  intro occupants es hexec
  obtain ⟨rfl, rfl⟩ := Prod.mk.inj (Except.ok.inj hexec)
  change postgres.After s (if ¬ admitted then .throw .forbidden
    else if occupantsOf s.rows key ≠ [] then .throw .conflict else pure pool) _
  split
  · exact .throw
  split
  · exact .throw
  rename_i hnone
  refine .pure ⟨pool_of_decode ho hdecode, ?_⟩
  intro r hr hkey
  by_contra hpurpose
  have hmem := (mem_occupantsOf s.rows key r).mpr ⟨hr, hkey, hpurpose⟩
  rw [not_not.mp hnone] at hmem
  simp at hmem

theorem deleteChildPool_after (hs : Consistent s.ledger) (key : Key) :
    postgres.After s (deleteChildPool key) fun _ s' =>
      s'.ledger = (released (s.ledger.drop (DeleteCond.matches (.reservationsOf key))) key).remove key := by
  apply Database.After.bind
  refine (deleteAllocations_after hs.keyed (.reservationsOf key)).mono ?_
  intro _ s₁ h₁
  have hs₁ : Consistent s₁.ledger := h₁ ▸ hs.drop _
  apply Database.After.bind
  refine (release_after hs₁.keyed key).mono ?_
  rintro retained s₂ ⟨-, h₂⟩
  refine (deleteObject_after key).mono ?_
  rintro _ s₃ ⟨-, h₃⟩
  rw [h₃, h₂, h₁]
  rfl

theorem deletePool_changes (hs : Consistent s.ledger) (project name : String) (admitted : Bool) (dryRun : List String) :
    Request.Ensures s (deletePool project name admitted dryRun) fun _ s' =>
      Changes hash (.deletePool project name admitted dryRun) s.ledger s'.ledger := by
  apply Request.Ensures.bind
  apply Request.Ensures.rollback _ fun _ => .refl
  refine (checkPoolEmpty_found (poolStorageKey project name) admitted).mono ?_
  rintro pool _ ⟨hstored, hempty⟩
  dsimp only
  cases hparent : pool.parentPoolRef with
  | none =>
    apply Request.Ensures.bind
    apply Request.Ensures.transact _ fun _ => .refl
    refine (deleteAllocations_after hs.keyed (.reservationsOf (poolStorageKey project name))).mono ?_
    intro _ s₁ h₁
    have hdropped : Change hash s.ledger (.deletePool project name admitted dryRun) s₁.ledger :=
      h₁ ▸ .dropReservations hstored hparent hempty
    have hrest : Request.Ensures s₁ (persist dryRun (ipPoolStrategy.delete (poolStorageKey project name) admitted))
        fun _ s' => Changes hash (.deletePool project name admitted dryRun) s₁.ledger s'.ledger := by
      apply persist_changes
      refine delete_ledger.mono ?_
      rintro _ s' ⟨-, hnone, hremove⟩
      rw [hremove]
      have hstored₁ : s₁.ledger.objects (poolStorageKey project name) = some (.pool pool.core) := by
        rw [h₁]
        exact hstored
      exact .inr (.removeRoot hstored₁ hparent hnone)
    exact hrest.mono fun _ _ h => Relation.ReflTransGen.head hdropped h
  | some parent =>
    apply transact_changes
    refine (deleteChildPool_after hs _).mono ?_
    intro _ s' hs'
    rw [hs']
    refine .inr (.deleteChild hstored ?_ hempty)
    change pool.parentPoolRef ≠ none
    rw [hparent]
    simp

theorem skipMissing_after (r : Handler Unit) (s : Db) : (skipMissing r).after s = r.after s := by
  simp only [Request.after, skipMissing]
  split
  · rename_i hanswer
    rw [hanswer]
  · rfl

theorem deletePoolCollection_changes (project : String) (admitted : Bool) (dryRun names : List String) :
    Request.Ensures s (deletePoolCollection project admitted dryRun names) fun _ s' =>
      Changes hash (.deletePools project admitted dryRun names) s.ledger s'.ledger := by
  suffices hsome : ∀ rest : List String, (∀ name ∈ rest, name ∈ names) → ∀ s : Db,
      Request.Ensures s (deletePoolCollection project admitted dryRun rest) fun _ s' =>
        Changes hash (.deletePools project admitted dryRun names) s.ledger s'.ledger from
    hsome names (fun _ h => h) s
  intro rest
  induction rest with
  | nil => exact fun _ s => .pure .refl
  | cons name rest ih =>
    intro hnames s
    apply Request.Ensures.bind
    have hfirst : Request.Ensures s
        (skipMissing (persist dryRun (ipPoolStrategy.delete (poolStorageKey project name) admitted)))
        fun _ s' => Changes hash (.deletePools project admitted dryRun names) s.ledger s'.ledger := by
      rw [Request.Ensures, skipMissing_after]
      apply persist_changes
      refine delete_ledger.mono ?_
      rintro _ s' ⟨⟨o, pool, ho, hdecode⟩, hempty, hremove⟩
      rw [hremove]
      exact .inr (.removePool (hnames name List.mem_cons_self) (pool_of_decode ho hdecode) hempty)
    refine hfirst.mono ?_
    intro answer s₁ h₁
    cases answer with
    | error e => exact h₁
    | ok _ =>
      exact (ih (fun n hn => hnames n (List.mem_cons_of_mem _ hn)) s₁).mono fun _ _ h₂ => h₁.trans h₂

end

end Ipam.Registry
