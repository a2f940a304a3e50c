import Ipam.Registry.Bindings
import Ipam.Registry.ClassProvenance
import Ipam.Registry.Laminar

namespace Ipam.Registry

open Allocation Allocator Cascade Database Transaction

def SameRoles (c c' : IPClass) : Prop :=
  ∀ role, role ∈ c.uniqueWithin ↔ role ∈ c'.uniqueWithin

theorem sameRoles_of_key {c c' : IPClass} (h : roleSetKey c.uniqueWithin = roleSetKey c'.uniqueWithin) :
    SameRoles c c' := by
  have hmem : ∀ (roles : List String) (role : String), role ∈ roleSetKey roles ↔ role ∈ roles := by
    intro roles role
    rw [roleSetKey, sortNames, List.mem_insertionSort, List.mem_dedup]
  intro role
  rw [← hmem, h, hmem]

structure RootClass (L : Ledger) (project name : String) (c : IPClass) : Prop where
  stored : L.objects (classStorageKey project name) = some (.class_ c)
  definition : c.source = none
  root : c.parentClassName = none

def NamesAgree (L : Ledger) (project : String) (names : List String) : Prop :=
  ∀ n ∈ names, ∀ n' ∈ names, ∀ c c', RootClass L project n c → RootClass L project n' c' → SameRoles c c'

def OffersAgree (L : Ledger) : Prop :=
  ∀ project namespace_ name pool, L.objects (.object project .ippools namespace_ name) = some (.pool pool) →
    NamesAgree L project pool.classNames

section

variable {s : Db} {L L' : Ledger}

theorem firstDisagreement_false {spaces : List (List String)} (h : firstDisagreement spaces = false) :
    ∀ a ∈ spaces, ∀ b ∈ spaces, a = b := by
  cases spaces with
  | nil => simp
  | cons first rest =>
    have hfirst : ∀ a ∈ first :: rest, a = first := by
      simpa [firstDisagreement] using h
    intro a ha b hb
    rw [hfirst a ha, hfirst b hb]

theorem asClass_of_ledger {k : Key} {c : IPClass} (h : s.ledger.objects k = some (.class_ c)) :
    asClass (s.object k) = some c := by
  obtain ⟨o, ho, hcore⟩ := Option.map_eq_some_iff.mp h
  rw [ho]
  cases o with
  | class_ c' => exact congrArg some (Object.class_.inj hcore)
  | pool | claim | allocation => cases hcore

theorem RootClass.offeredSpace {project name : String} {c : IPClass} (h : RootClass s.ledger project name c) :
    (asClass (s.object (classStorageKey project name))).bind offeredSpace = some (roleSetKey c.uniqueWithin) := by
  simp [asClass_of_ledger h.stored, Registry.offeredSpace, h.definition, h.root]

theorem offeredSpaces_after (project : String) (names : List String) :
    postgres.After s (offeredSpaces project names) fun spaces s' => s' = s ∧
      ∀ name ∈ names, ∀ c, RootClass s.ledger project name c → roleSetKey c.uniqueWithin ∈ spaces := by
  induction names with
  | nil => exact .pure ⟨rfl, by simp⟩
  | cons name rest ih =>
    apply getObject_after
    apply Database.After.bind
    refine ih.mono ?_
    rintro spaces s' ⟨rfl, hspaces⟩
    refine .pure ⟨rfl, ?_⟩
    intro n hn c hc
    cases List.mem_cons.mp hn with
    | inl heq =>
      subst heq
      rw [hc.offeredSpace]
      exact List.mem_append_left _ (List.mem_singleton_self _)
    | inr hrest => exact List.mem_append_right _ (hspaces n hrest c hc)

theorem validateClassOffers_after (project : String) (pool : IPPool) :
    postgres.After s (validateClassOffers project pool) fun _ s' =>
      s' = s ∧ NamesAgree s.ledger project pool.classNames := by
  simp only [validateClassOffers]
  split
  · rename_i hshort
    refine .pure ⟨rfl, ?_⟩
    -- a pool that names one class has nothing to compare
    intro n hn n' hn' c c' hc hc'
    have hsame : n = n' := by
      obtain ⟨m, hnames⟩ := List.length_eq_one_iff.mp (le_antisymm (Nat.le_of_lt_succ hshort)
        (List.length_pos_of_mem hn))
      rw [hnames, List.mem_singleton] at hn hn'
      rw [hn, hn']
    subst hsame
    have hstored := hc.stored.symm.trans hc'.stored
    obtain rfl := Object.class_.inj (Option.some.inj hstored)
    exact fun _ => Iff.rfl
  · apply Database.After.bind
    refine (offeredSpaces_after project pool.classNames).mono ?_
    rintro spaces s' ⟨rfl, hspaces⟩
    split
    · exact .throw
    · rename_i hagree
      refine .pure ⟨rfl, ?_⟩
      intro n hn n' hn' c c' hc hc'
      apply sameRoles_of_key
      exact firstDisagreement_false (by simpa using hagree) _ (hspaces n hn c hc) _ (hspaces n' hn' c' hc')

theorem offersDisagree_after (project : String) (space : List String) (offers : List (List String)) :
    postgres.After s (offersDisagree project space offers) fun d s' => s' = s ∧ (d = false →
      ∀ names ∈ offers, ∀ n ∈ names, ∀ c, RootClass s.ledger project n c → roleSetKey c.uniqueWithin = space) := by
  induction offers with
  | nil => exact .pure ⟨rfl, by simp⟩
  | cons names rest ih =>
    apply Database.After.bind
    refine (offeredSpaces_after project names).mono ?_
    rintro spaces s' ⟨rfl, hspaces⟩
    split
    · exact .pure ⟨rfl, by simp⟩
    · rename_i hagree
      refine ih.mono ?_
      rintro d s'' ⟨rfl, hrest⟩
      refine ⟨rfl, ?_⟩
      intro hd names' hnames' n hn c hc
      cases List.mem_cons.mp hnames' with
      | inl heq =>
        subst heq
        exact firstDisagreement_false (by simpa using hagree) _ (List.mem_append_left _ (hspaces n hn c hc)) _
          (List.mem_append_right _ (List.mem_singleton_self _))
      | inr hmem => exact hrest hd names' hmem n hn c hc

theorem mem_poolsOffering {project className namespace_ name : String} {pool : IPPool}
    (h : s.ledger.objects (.object project .ippools namespace_ name) = some (.pool pool))
    (hname : className ∈ pool.classNames) : pool.classNames ∈ poolsOffering project className s := by
  obtain ⟨o, ho, hcore⟩ := Option.map_eq_some_iff.mp h
  cases o with
  | pool p =>
    obtain rfl : p.core = pool := Object.pool.inj hcore
    refine List.mem_map.mpr ⟨(name, p.classNames), ?_, rfl⟩
    rw [List.mem_insertionSort, List.mem_filterMap]
    refine ⟨_, mem_of_lookup ho, ?_⟩
    have hnamed : className ∈ p.classNames := hname
    simp [hnamed]
  | class_ | claim | allocation => cases hcore

theorem validateOfferAgreement_after (project name : String) (c : IPClass) :
    postgres.After s (validateOfferAgreement project name c) fun _ _ => c.source = none → c.parentClassName = none →
      ∀ namespace_ poolName pool, s.ledger.objects (.object project .ippools namespace_ poolName) = some (.pool pool) →
        name ∈ pool.classNames → ∀ n ∈ pool.classNames, ∀ c', RootClass s.ledger project n c' → SameRoles c' c := by
  simp only [validateOfferAgreement]
  split
  · rename_i hinert
    apply Database.After.pure
    intro hsource hparent
    simp [hsource, hparent] at hinert
  · apply Database.After.bind
    have hjoins : postgres.After s (classJoinsDisagreement project name (roleSetKey c.uniqueWithin)) fun d s' =>
        s' = s ∧ (d = false → ∀ names ∈ poolsOffering project name s, ∀ n ∈ names, ∀ c',
          RootClass s.ledger project n c' → roleSetKey c'.uniqueWithin = roleSetKey c.uniqueWithin) :=
      select_after (offersDisagree_after project _ _)
    refine hjoins.mono ?_
    rintro d s' ⟨rfl, hagree⟩
    split
    · exact .throw
    · rename_i hd
      apply Database.After.pure
      intro _ _ namespace_ poolName pool hpool hname n hn c' hc'
      exact sameRoles_of_key (hagree (by simpa using hd) _ (mem_poolsOffering hpool hname) n hn c' hc')

theorem SameRoles.symm {c c' : IPClass} (h : SameRoles c c') : SameRoles c' c :=
  fun role => (h role).symm

theorem OffersAgree.put_class (h : OffersAgree L) {project name : String} {c : IPClass}
    (hagree : c.source = none → c.parentClassName = none → ∀ namespace_ poolName pool,
      L.objects (.object project .ippools namespace_ poolName) = some (.pool pool) → name ∈ pool.classNames →
        ∀ n ∈ pool.classNames, ∀ c', RootClass L project n c' → SameRoles c' c) :
    OffersAgree (L.put (classStorageKey project name) (.class_ c)) := by
  intro project' namespace_ poolName pool hpool n hn n' hn' x x' hx hx'
  obtain ⟨-, hnew⟩ | ⟨-, hstored⟩ := Ledger.put_objects.mp hpool
  · cases hnew
  have hcases : ∀ {m y}, RootClass (L.put (classStorageKey project name) (.class_ c)) project' m y →
      project' = project ∧ m = name ∧ y = c ∨ RootClass L project' m y := by
    intro m y hy
    obtain ⟨hkey, hnew⟩ | ⟨-, hold⟩ := Ledger.put_objects.mp hy.stored
    · simp only [classStorageKey, Key.object.injEq, true_and] at hkey
      exact .inl ⟨hkey.1, hkey.2, (Object.class_.inj hnew)⟩
    · exact .inr ⟨hold, hy.definition, hy.root⟩
  obtain ⟨rfl, rfl, rfl⟩ | hold := hcases hx
  · obtain ⟨-, rfl, rfl⟩ | hold' := hcases hx'
    · exact fun _ => Iff.rfl
    · exact (hagree hx.definition hx.root _ _ pool hstored hn n' hn' x' hold').symm
  · obtain ⟨rfl, rfl, rfl⟩ | hold' := hcases hx'
    · exact hagree hx'.definition hx'.root _ _ pool hstored hn' n hn x hold
    · exact h _ _ _ pool hstored n hn n' hn' x x' hold hold'

theorem OffersAgree.put_pool (h : OffersAgree L) {project name : String} {pool : IPPool}
    (hagree : NamesAgree L project pool.classNames) :
    OffersAgree (L.put (poolStorageKey project name) (.pool pool)) := by
  have hroot : ∀ {project' m y}, RootClass (L.put (poolStorageKey project name) (.pool pool)) project' m y →
      RootClass L project' m y := by
    intro project' m y hy
    obtain ⟨-, hnew⟩ | ⟨-, hold⟩ := Ledger.put_objects.mp hy.stored
    · cases hnew
    · exact ⟨hold, hy.definition, hy.root⟩
  intro project' namespace_ poolName pool' hpool' n hn n' hn' c c' hc hc'
  obtain ⟨hkey, hnew⟩ | ⟨-, hstored⟩ := Ledger.put_objects.mp hpool'
  · obtain rfl := Object.pool.inj hnew
    simp only [poolStorageKey, Key.object.injEq, true_and] at hkey
    obtain ⟨rfl, -, -⟩ := hkey
    exact hagree n hn n' hn' c c' (hroot hc) (hroot hc')
  · exact h _ _ _ pool' hstored n hn n' hn' c c' (hroot hc) (hroot hc')

end

structure Confines (L L' : Ledger) : Prop where
  classes : KeepsClasses L' L
  offers : ∀ k pool', L'.objects k = some (.pool pool') →
    ∃ pool, L.objects k = some (.pool pool) ∧ pool'.classNames ⊆ pool.classNames
  identities : ∀ i ∈ L'.identities, i ∈ L.identities

structure Narrows (L L' : Ledger) : Prop extends Confines L L' where
  rows : ∀ r ∈ L'.rows, Row.Backs r → ∃ o ∈ L.rows, o.unclaimed = r.unclaimed

def Action.written (L : Ledger) : Action → Ledger
  | .createClass req => L.put req.key (.class_ req.class_)
  | .createPool req => L.put req.key (.pool req.pool)
  | .updatePool req _ => L.put req.key (.pool req.pool)
  | _ => L

section

variable {hash : Scope.Text → String} {L L' L'' : Ledger} {a : Action} {k : Key}

theorem Confines.of_kept (h : ∀ k o, Object.bound o = false → L'.objects k = some o → L.objects k = some o)
    (hids : ∀ i ∈ L'.identities, i ∈ L.identities) : Confines L L' := by
  refine ⟨fun k c hc => h k _ rfl hc, ?_, hids⟩
  intro k pool hpool
  exact ⟨pool, h k _ rfl hpool, fun _ hn => hn⟩

namespace Narrows

theorem trans (h : Narrows L L') (h' : Narrows L' L'') : Narrows L L'' := by
  refine ⟨⟨fun k c hc => h.classes k c (h'.classes k c hc), ?_, fun i hi => h.identities i (h'.identities i hi)⟩, ?_⟩
  · intro k pool'' hpool''
    obtain ⟨pool', hpool', hsub'⟩ := h'.offers k pool'' hpool''
    obtain ⟨pool, hpool, hsub⟩ := h.offers k pool' hpool'
    exact ⟨pool, hpool, fun _ hn => hsub (hsub' hn)⟩
  · intro r hr hbacks
    obtain ⟨o, ho, heq⟩ := h'.rows r hr hbacks
    have hkey : o.unclaimed.allocationKey = r.unclaimed.allocationKey := congrArg Row.allocationKey heq
    have hbacks' : Row.Backs o := by
      rw [Row.Backs, show o.allocationKey = r.allocationKey from hkey]
      exact hbacks
    obtain ⟨o', ho', heq'⟩ := h.rows o ho hbacks'
    exact ⟨o', ho', heq'.trans heq⟩

theorem of_shrinks (h : Shrinks L L') (hkept : ∀ k o, Object.bound o = false → L'.objects k = some o →
    L.objects k = some o) : Narrows L L' :=
  ⟨.of_kept hkept h.identities, fun r hr _ => h.rows r hr⟩

theorem refl (L : Ledger) : Narrows L L :=
  .of_shrinks (.refl L) fun _ _ _ h => h

theorem put (h : Narrows L L') {o o' : Object} (hclass : ∀ c, o' = .class_ c → o = .class_ c)
    (hpool : ∀ pool', o' = .pool pool' → ∃ pool, o = .pool pool ∧ pool'.classNames ⊆ pool.classNames) :
    Narrows (L.put k o) (L'.put k o') := by
  refine ⟨⟨?_, ?_, h.identities⟩, h.rows⟩
  · intro k' c hc
    obtain ⟨rfl, hnew⟩ | ⟨hne, hold⟩ := Ledger.put_objects.mp hc
    · exact Ledger.put_objects.mpr (.inl ⟨rfl, (hclass c hnew.symm).symm⟩)
    · exact Ledger.put_objects.mpr (.inr ⟨hne, h.classes k' c hold⟩)
  · intro k' pool' hstored
    obtain ⟨rfl, hnew⟩ | ⟨hne, hold⟩ := Ledger.put_objects.mp hstored
    · obtain ⟨pool, rfl, hsub⟩ := hpool pool' hnew.symm
      exact ⟨pool, Ledger.put_objects.mpr (.inl ⟨rfl, rfl⟩), hsub⟩
    · obtain ⟨pool, hpool', hsub⟩ := h.offers k' pool' hold
      exact ⟨pool, Ledger.put_objects.mpr (.inr ⟨hne, hpool'⟩), hsub⟩

theorem put_pool (h : Narrows L L') {pool pool' : IPPool} (hsub : pool'.classNames ⊆ pool.classNames) :
    Narrows (L.put k (.pool pool)) (L'.put k (.pool pool')) := by
  apply h.put
  · exact fun c hc => nomatch hc
  · intro p hp
    obtain rfl := Object.pool.inj hp
    exact ⟨pool, rfl, hsub⟩

theorem put_class (h : Narrows L L') (c : IPClass) : Narrows (L.put k (.class_ c)) (L'.put k (.class_ c)) := by
  apply h.put
  · exact fun _ hc => hc
  · exact fun _ hp => nomatch hp

end Narrows

theorem OffersAgree.confines (h : OffersAgree L) (hL : Confines L L') : OffersAgree L' := by
  intro project namespace_ name pool' hpool' n hn n' hn' c c' hc hc'
  obtain ⟨pool, hpool, hsub⟩ := hL.offers _ pool' hpool'
  exact h project namespace_ name pool hpool n (hsub hn) n' (hsub hn') c c'
    ⟨hL.classes _ _ hc.stored, hc.definition, hc.root⟩ ⟨hL.classes _ _ hc'.stored, hc'.definition, hc'.root⟩

theorem Narrows.of_child {req : PoolRequest} {parent : String} {mid carved : Ledger} {pool : IPPool} {block : IPNet}
    {b : Cidr} {ed digest : String} {n : ℤ} (h : Taken ed (poolStorageKey req.project parent) digest n
      ((req.prefixRequest parent).row ed) L mid carved pool block b) : Narrows L carved := by
  obtain ⟨hobjects, hids⟩ := taken_objects h
  refine ⟨.of_kept (fun k o _ ho => by rwa [hobjects] at ho) fun i hi => by rwa [hids] at hi, ?_⟩
  intro r hr hbacks
  obtain hold | rfl := (Taken.backs h hbacks).mp hr
  · exact ⟨r, hold, rfl⟩
  · cases hbacks

theorem remove_kept {k' : Key} {o : Object} (h : (L.remove k).objects k' = some o) : L.objects k' = some o :=
  (Ledger.remove_objects.mp h).2

theorem put_bound_kept {k' : Key} {o o' : Object} (ho : Object.bound o = true) (ho' : Object.bound o' = false)
    (h : (L.put k o).objects k' = some o') : L.objects k' = some o' := by
  obtain ⟨-, rfl⟩ | ⟨-, hold⟩ := Ledger.put_objects.mp h
  · rw [ho] at ho'
    cases ho'
  · exact hold

theorem disposed_kept {retained : List Key} {allocation : Option Key} (h : Disposed L retained allocation L') {k' : Key}
    {o : Object} (ho : Object.bound o = false) (hk : L'.objects k' = some o) : L.objects k' = some o := by
  cases h with
  | unbound => exact hk
  | missing _ _ => exact hk
  | kept _ _ => exact put_bound_kept rfl ho hk
  | removed _ _ => exact remove_kept hk

theorem Change.narrows (h : Change hash L a L') (hclaim : ∀ req, a ≠ .createClaim req)
    (hclass : ∀ req force, a ≠ .updateClass req force) : Narrows (a.written L) L' := by
  have hsame := Shrinks.refl L
  cases h with
  | createClass _ _ => exact .refl _
  | forceClass _ _ => exact absurd rfl (hclass _ _)
  | updateClass _ _ => exact absurd rfl (hclass _ _)
  | removeClass _ => exact .of_shrinks hsame.remove fun _ _ _ ho => remove_kept ho
  | createRoot _ _ _ _ =>
    refine (Narrows.refl L).put_pool ?_
    rw [preparePoolForCreate_core]
    exact fun _ hn => hn
  | @authorChild req _ _ _ _ _ b _ _ htaken _ =>
    refine (Narrows.of_child htaken).put_pool ?_
    have hnames := congrArg IPPool.classNames (preparePoolForCreate_core req.pool)
    intro n hn
    exact hnames ▸ hn
  | forcePool _ _ =>
    refine (Narrows.refl L).put_pool ?_
    rw [preparePoolForCreate_core]
    exact fun _ hn => hn
  | updatePool _ _ => exact (Narrows.refl L).put_pool fun _ hn => hn
  | dropReservations _ _ _ => exact .of_shrinks (hsame.drop _) fun _ _ _ ho => ho
  | removeRoot _ _ _ => exact .of_shrinks hsame.remove fun _ _ _ ho => remove_kept ho
  | deleteChild _ _ _ => exact .of_shrinks (hsame.drop _).released.remove fun _ _ _ ho => remove_kept ho
  | removePool _ _ _ => exact .of_shrinks hsame.remove fun _ _ _ ho => remove_kept ho
  | provision _ _ _ _ => exact absurd rfl (hclaim _)
  | bindBlock _ _ _ _ _ _ _ _ _ => exact absurd rfl (hclaim _)
  | holdRange _ _ _ _ _ _ _ _ _ _ => exact absurd rfl (hclaim _)
  | forceClaim _ => exact .of_shrinks (hsame.put_bound rfl) fun _ _ hb ho => put_bound_kept rfl hb ho
  | updateClaim _ _ => exact .of_shrinks (hsame.put_bound rfl) fun _ _ hb ho => put_bound_kept rfl hb ho
  | releasing _ _ => exact .of_shrinks (hsame.put_bound rfl) fun _ _ hb ho => put_bound_kept rfl hb ho
  | releaseClaim _ _ hdisposed _ =>
    refine .of_shrinks (hsame.released.disposed hdisposed).remove ?_
    exact fun _ _ hb ho => disposed_kept hdisposed hb (remove_kept ho)
  | releaseRange _ _ _ _ _ _ _ =>
    refine .of_shrinks (hsame.clear _ _).remove ?_
    intro k o _ ho
    have hcleared := remove_kept ho
    simp only [Ledger.clear] at hcleared
    split at hcleared
    · cases hcleared
    · exact hcleared
  | removeRangeClaim _ _ _ _ => exact .of_shrinks hsame.remove fun _ _ _ ho => remove_kept ho
  | forceAllocation _ => exact .of_shrinks (hsame.put_bound rfl) fun _ _ hb ho => put_bound_kept rfl hb ho
  | updateAllocation _ _ => exact .of_shrinks (hsame.put_bound rfl) fun _ _ hb ho => put_bound_kept rfl hb ho
  | freeAllocation _ _ _ => exact .of_shrinks (hsame.drop _).remove fun _ _ _ ho => remove_kept ho

theorem Narrows.written (h : Narrows (a.written L) L') : Narrows (a.written L) (a.written L') := by
  have hself : ∀ {k : Key} {o : Object} {L : Ledger}, (L.put k o).put k o = L.put k o := by
    intro k o L
    simp [Ledger.put]
  cases a with
  | createClass req =>
    have hput : Narrows ((L.put req.key (.class_ req.class_)).put req.key (.class_ req.class_))
      (L'.put req.key (.class_ req.class_)) := Narrows.put_class h _
    rwa [hself] at hput
  | createPool req =>
    have hput : Narrows ((L.put req.key (.pool req.pool)).put req.key (.pool req.pool))
      (L'.put req.key (.pool req.pool)) := Narrows.put_pool h fun _ hn => hn
    rwa [hself] at hput
  | updatePool req force =>
    have hput : Narrows ((L.put req.key (.pool req.pool)).put req.key (.pool req.pool))
      (L'.put req.key (.pool req.pool)) := Narrows.put_pool h fun _ hn => hn
    rwa [hself] at hput
  | _ => exact h

theorem changes_narrows (h : Changes hash a L L') (hclaim : ∀ req, a ≠ .createClaim req)
    (hclass : ∀ req force, a ≠ .updateClass req force) : L' = L ∨ Narrows (a.written L) L' := by
  induction h with
  | refl => exact .inl rfl
  | tail _ hlast ih =>
    right
    have hnarrows := hlast.narrows hclaim hclass
    cases ih with
    | inl heq =>
      rw [heq] at hnarrows
      exact hnarrows
    | inr hwritten => exact hwritten.written.trans hnarrows

section

variable {s : Db}

theorem createClass_offers (h : OffersAgree s.ledger) (req : ClassRequest) :
    Request.Ensures s (createClass req) fun _ s' =>
      s'.ledger = s.ledger ∨ OffersAgree (s.ledger.put req.key (.class_ req.class_)) := by
  refine (createClass_ensures req s).mono ?_
  rintro _ s' (rfl | ⟨⟨-, s₁, hrun⟩, -, -⟩)
  · exact .inl rfl
  · right
    exact h.put_class (validateOfferAgreement_after req.project req.name req.class_ () s₁ hrun)

theorem createPool_offers (h : OffersAgree s.ledger) (req : PoolRequest) (ed : String) :
    Request.Ensures s (createPool ed req) fun _ s' =>
      s'.ledger = s.ledger ∨ OffersAgree (s.ledger.put req.key (.pool req.pool)) := by
  apply Request.Ensures.bind
  apply Request.Ensures.rollback _ fun _ => .inl rfl
  refine (validateClassOffers_after req.project req.pool).mono ?_
  rintro _ _ ⟨-, hagree⟩
  have hput : OffersAgree (s.ledger.put req.key (.pool req.pool)) := h.put_pool hagree
  exact .inr hput

theorem updatePool_offers (h : OffersAgree s.ledger) (req : PoolRequest) (force : Bool)
    (hthrough : (Action.updatePool req force).ThroughCreate s.ledger) :
    Request.Ensures s (updatePool req force) fun _ s' =>
      s'.ledger = s.ledger ∨ OffersAgree (s.ledger.put req.key (.pool req.pool)) := by
  apply persist_ensures (.inl rfl)
  refine (Strategy.update_checked fun new => validateClassOffers_after req.project new).mono ?_
  rintro new s' (⟨rfl, -, -, habsent, -⟩ | ⟨hagree, ⟨o, old, -, -, rfl, -⟩, -⟩)
  · exact absurd (ledger_object_none.mpr habsent) hthrough
  · have hput : OffersAgree (s.ledger.put req.key (.pool req.pool)) := h.put_pool hagree
    exact .inr hput

theorem serve_offers (h : OffersAgree s.ledger) (a : Action) (ha : a.ThroughCreate s.ledger) :
    (serve hash a s).ledger = s.ledger ∨ OffersAgree (a.written s.ledger) := by
  cases a with
  | createClass req => exact createClass_offers h req
  | createPool req => exact createPool_offers h req _
  | updatePool req force => exact updatePool_offers h req force ha
  | _ => exact .inr h

end

end

def Action.ChecksOffers (L : Ledger) (a : Action) : Prop :=
  a.ThroughCreate L ∧ ∀ req, a = .updateClass req true → L.objects req.key ≠ none

abbrev OfferRun (hash : Scope.Text → String) : Db → Prop :=
  Served (serve hash) (fun a s => a.ChecksOffers s.ledger) Db.empty

section

variable {hash : Scope.Text → String} {L L' : Ledger}

theorem OffersAgree.redefined (h : OffersAgree L) {k : Key} {c c' : IPClass} (hk : L.objects k = some (.class_ c))
    (hr : Redefines c c') : OffersAgree (L.put k (.class_ c')) := by
  have hroot : ∀ {project m y}, RootClass (L.put k (.class_ c')) project m y →
      ∃ y₀, RootClass L project m y₀ ∧ y.uniqueWithin = y₀.uniqueWithin := by
    intro project m y hy
    obtain ⟨rfl, hnew⟩ | ⟨-, hold⟩ := Ledger.put_objects.mp hy.stored
    · obtain rfl := Object.class_.inj hnew
      exact ⟨c, ⟨hk, hr.source ▸ hy.definition, hr.parentClassName ▸ hy.root⟩, hr.uniqueWithin⟩
    · exact ⟨y, ⟨hold, hy.definition, hy.root⟩, rfl⟩
  intro project namespace_ name pool hpool n hn n' hn' x x' hx hx'
  obtain ⟨-, hnew⟩ | ⟨-, hstored⟩ := Ledger.put_objects.mp hpool
  · cases hnew
  · obtain ⟨y, hy, heq⟩ := hroot hx
    obtain ⟨y', hy', heq'⟩ := hroot hx'
    rw [SameRoles, heq, heq']
    exact h project namespace_ name pool hstored n hn n' hn' y y' hy hy'

theorem OffersAgree.claim (h : OffersAgree L) {req : ClaimRequest} (hchange : Change hash L (.createClaim req) L') :
    OffersAgree L' := by
  cases hchange with
  | @provision _ level _ _ _ _ _ _ _ _ _ _ _ hprov =>
    have hclasses := Provisioned.classes hprov
    intro project namespace_ name pool hpool n hn n' hn' x x' hx hx'
    by_cases hk : Key.object project .ippools namespace_ name = level.poolKey
    · -- a provisioned pool names no class
      rw [hprov.objects.1, hk, Function.update_self] at hpool
      obtain rfl := Object.pool.inj (Option.some.inj hpool)
      cases hn
    · rw [hprov.objects.1, Function.update_of_ne hk] at hpool
      exact h project namespace_ name pool hpool n hn n' hn' x x' ⟨hclasses _ _ hx.stored, hx.definition, hx.root⟩
        ⟨hclasses _ _ hx'.stored, hx'.definition, hx'.root⟩
  | bindBlock _ _ _ _ _ _ htaken _ _ =>
    obtain ⟨hobjects, hids⟩ := taken_objects htaken
    refine h.confines (.of_kept (fun k o hb ho => ?_) fun i hi => by rwa [← hids])
    rw [← hobjects]
    exact put_bound_kept rfl hb (put_bound_kept rfl hb ho)
  | holdRange _ _ _ _ _ _ _ _ _ _ =>
    exact h.confines (.of_kept (fun k o hb ho => put_bound_kept rfl hb ho) fun i hi => hi)

theorem serve_offersAgree {s : Db} (hs : s.Tabled) (hc : Consistent s.ledger) (h : OffersAgree s.ledger) (a : Action)
    (ha : a.ChecksOffers s.ledger) : OffersAgree (serve hash a s).ledger := by
  have hchanges : Changes hash a s.ledger (serve hash a s).ledger := serve_changes hs hc a
  cases a with
  | createClaim req =>
    generalize (serve hash (.createClaim req) s).ledger = L' at hchanges ⊢
    induction hchanges with
    | refl => exact h
    | tail _ hlast ih => exact ih.claim hlast
  | updateClass req force =>
    -- the class is there, and stays there
    have hstep {L L' : Ledger} (hL : OffersAgree L ∧ (force = true → L.objects req.key ≠ none))
        (hchange : Change hash L (.updateClass req force) L') :
        OffersAgree L' ∧ (force = true → L'.objects req.key ≠ none) := by
      cases hchange with
      | forceClass _ habsent => exact absurd habsent (hL.2 rfl)
      | updateClass hstored hvalid =>
        exact ⟨hL.1.redefined hstored (redefines_of_validateUpdate hvalid), fun _ => by simp [Ledger.put]⟩
    have hkept : ∀ {L'}, Changes hash (.updateClass req force) s.ledger L' →
        OffersAgree L' ∧ (force = true → L'.objects req.key ≠ none) := by
      intro L' hrun
      induction hrun with
      | refl => exact ⟨h, fun hforce => ha.2 req (by rw [hforce])⟩
      | tail _ hlast ih => exact hstep ih hlast
    exact (hkept hchanges).1
  | _ =>
    obtain hsame | hnarrows := changes_narrows hchanges (fun _ => Action.noConfusion) (fun _ _ => Action.noConfusion)
    · rw [hsame]
      exact h
    · obtain hsame | hoffers := serve_offers h _ ha.1
      · rw [hsame]
        exact h
      · exact hoffers.confines hnarrows.toConfines

end

theorem offers_agree {hash : Scope.Text → String} {s : Db} (hs : OfferRun hash s) : OffersAgree s.ledger := by
  refine (Served.inv (I := fun s => s.Tabled ∧ Consistent s.ledger ∧ OffersAgree s.ledger) ⟨?_, ?_, ?_⟩ ?_ hs).2.2
  · exact List.nodup_nil
  · exact consistent_empty
  · intro project namespace_ name pool hpool
    cases hpool
  · rintro a s ⟨htabled, hc, h⟩ ha
    have hchanges : Changes hash a s.ledger (serve hash a s).ledger := serve_changes htabled hc a
    exact ⟨serve_tabled htabled a, changes_consistent hc hchanges, serve_offersAgree htabled hc h a ha⟩

def rolesRequest (name : String) (roles : List String) : ClassRequest :=
  { hostsClassRequest with name := name, class_ := { hostsClass with uniqueWithin := roles } }

/-- The pool names both classes before there is a second one. -/
def offeredDb : Db :=
  serve byteChars (.createPool { hostsPoolRequest 0 with
    pool := { (hostsPoolRequest 0).pool with classNames := ["hosts", "links"] } })
    (serve byteChars (.createClass (rolesRequest "hosts" ["network", "site"])) Db.empty)

def refusedLinks : Db :=
  serve byteChars (.createClass (rolesRequest "links" ["network"])) offeredDb

def joinedDb : Db :=
  serve byteChars (.createClass (rolesRequest "links" ["site", "network"])) refusedLinks

theorem offers_agree_joined :
    OfferRun byteChars joinedDb ∧ refusedLinks.object (classStorageKey "infra" "links") = none ∧
    RootClass joinedDb.ledger "infra" "hosts" (rolesRequest "hosts" ["network", "site"]).class_ ∧
    RootClass joinedDb.ledger "infra" "links" (rolesRequest "links" ["site", "network"]).class_ ∧
    SameRoles (rolesRequest "hosts" ["network", "site"]).class_ (rolesRequest "links" ["site", "network"]).class_ := by
  have hrun : OfferRun byteChars joinedDb :=
    .serve _ (.serve _ (.serve _ (.serve _ .start ⟨trivial, fun _ h => nomatch h⟩) ⟨trivial, fun _ h => nomatch h⟩)
      ⟨trivial, fun _ h => nomatch h⟩) ⟨trivial, fun _ h => nomatch h⟩
  have hhosts : RootClass joinedDb.ledger "infra" "hosts" (rolesRequest "hosts" ["network", "site"]).class_ :=
    ⟨by decide +kernel, rfl, rfl⟩
  have hlinks : RootClass joinedDb.ledger "infra" "links" (rolesRequest "links" ["site", "network"]).class_ :=
    ⟨by decide +kernel, rfl, rfl⟩
  have hnames : (joinedDb.pool officeKey).map IPPool.classNames = some ["hosts", "links"] := by decide +kernel
  obtain ⟨pool, hpool, hclasses⟩ := Option.map_eq_some_iff.mp hnames
  refine ⟨hrun, by decide +kernel, hhosts, hlinks, ?_⟩
  refine offers_agree hrun "infra" "" "office" pool.core (pool_of_ledger hpool) "hosts" ?_ "links" ?_ _ _ hhosts hlinks
  · simp [IPPool.core, hclasses]
  · simp [IPPool.core, hclasses]

end Ipam.Registry
