import Ipam.Allocator.PoolTransactions
import Ipam.Allocator.Upkeep
import Ipam.Database.ObjectLocks
import Ipam.Lib.Notes
import Ipam.Registry.Pools

namespace Ipam.Registry

open Allocation Allocator Cascade Database Transaction

def poolRoot (pool : IPPool) : Option IPNet :=
  if pool.parentPoolRef = none then pool.cidr else none

def rootOf (o : Option Object) : Option IPNet :=
  (asPool o).bind poolRoot

def rootAt (project name : String) (s : Db) : Option IPNet :=
  rootOf (s.object (poolStorageKey project name))

def RootsApart (project : String) (s : Db) : Prop :=
  ∀ name name' a b, name ≠ name' → rootAt project name s = some a → rootAt project name' s = some b →
    ∀ ip, ¬ (a.contains ip = true ∧ b.contains ip = true)

def RootsFall (project : String) (s s' : Db) : Prop :=
  ∀ name, rootAt project name s' = none ∨ rootAt project name s' = rootAt project name s

instance (project : String) : Std.Refl (RootsFall project) := ⟨fun _ _ => Or.inr rfl⟩

instance (project : String) : IsTrans Db (RootsFall project) where
  trans s s' s'' h h' name := by
    rcases h' name with h' | h'
    · exact Or.inl h'
    · rcases h name with h | h
      · exact Or.inl (h'.trans h)
      · exact Or.inr (h'.trans h)

theorem RootsApart.fall {project : String} {s s' : Db} (h : RootsApart project s) (hfall : RootsFall project s s') :
    RootsApart project s' := by
  have hold : ∀ name a, rootAt project name s' = some a → rootAt project name s = some a := by
    intro name a ha
    rcases hfall name with hnone | hsame
    · rw [hnone] at ha
      cases ha
    · rwa [hsame] at ha
  intro name name' a b hne ha hb
  exact h name name' a b hne (hold name a ha) (hold name' b hb)

theorem networkNumberAndMask_shortest (n : IPNet) :
    (n.networkNumberAndMask.1, n.networkNumberAndMask.2.1) = n.ip.shortest := by
  simp only [IPNet.networkNumberAndMask]
  cases n.ip.shortest with
  | mk f a =>
    cases n.ip.family <;> cases f <;> rfl

theorem isSome_to4 (ip : IP) : ip.to4.isSome = (ip.shortest.1 == Family.v4) := by
  simp only [IP.shortest]
  cases ip.to4 <;> rfl

theorem div_blockSize_of_le {x y l m bits : ℕ} (hlm : l ≤ m) (h : x / blockSize m bits = y / blockSize m bits) :
    x / blockSize l bits = y / blockSize l bits := by
  obtain ⟨c, hc⟩ := Cidr.blockSize_anti bits hlm
  rw [hc, ← Nat.div_div_eq_div_mul, ← Nat.div_div_eq_div_mul, h]

theorem contains_of_meet {a b : IPNet} {ip : IP} (ha : a.contains ip = true) (hb : b.contains ip = true)
    (hlen : a.networkNumberAndMask.2.2 ≤ b.networkNumberAndMask.2.2) : a.contains b.ip = true := by
  have hshort := networkNumberAndMask_shortest b
  simp only [IPNet.contains, Bool.and_eq_true, beq_iff_eq] at ha hb ⊢
  rw [← hshort]
  refine ⟨ha.1.trans hb.1.symm, ?_⟩
  have hfamily : a.networkNumberAndMask.1 = b.networkNumberAndMask.1 := ha.1.trans hb.1.symm
  have hcoarse := div_blockSize_of_le hlen hb.2
  rw [ha.2, hfamily]
  exact hcoarse.symm

theorem cidrsOverlap_of_meet {a b : IPNet} {ip : IP} (ha : a.contains ip = true) (hb : b.contains ip = true) :
    cidrsOverlap a b = true := by
  have hfamily : a.ip.shortest.1 = b.ip.shortest.1 := by
    rw [← networkNumberAndMask_shortest a, ← networkNumberAndMask_shortest b]
    simp only [IPNet.contains, Bool.and_eq_true, beq_iff_eq] at ha hb
    exact ha.1.trans hb.1.symm
  have hsame : sameFamily a.ip b.ip = true := by
    simp only [sameFamily, isSome_to4, hfamily, BEq.rfl]
  rw [cidrsOverlap, hsame, Bool.true_and, Bool.or_eq_true]
  rcases le_total a.networkNumberAndMask.2.2 b.networkNumberAndMask.2.2 with h | h
  · exact Or.inl (contains_of_meet ha hb h)
  · exact Or.inr (contains_of_meet hb ha h)

theorem mem_of_lookup {k : Key} {o : Object} {t : List (Key × Object)} (h : t.lookup k = some o) : (k, o) ∈ t := by
  induction t with
  | nil => cases h
  | cons e t ih =>
    obtain ⟨k', o'⟩ := e
    rw [List.lookup_cons] at h
    by_cases hk : k = k'
    · subst hk
      rw [BEq.rfl] at h
      obtain rfl := Option.some.inj h
      exact List.mem_cons_self
    · rw [beq_false_of_ne hk] at h
      exact List.mem_cons_of_mem _ (ih h)

theorem mem_tenantRootPoolCIDRs {project name name' : String} {s : Db} {a : IPNet}
    (hsees : Tenant.SeesOwn project.toList) (hne : name' ≠ name) (h : rootAt project name' s = some a) :
    (name', a) ∈ tenantRootPoolCIDRs project name s := by
  obtain ⟨pool, hpool, hroot⟩ := Option.bind_eq_some_iff.mp h
  cases ho : s.object (poolStorageKey project name') with
  | none =>
    rw [ho] at hpool
    cases hpool
  | some o =>
    rw [ho] at hpool
    cases o with
    | pool q =>
      obtain rfl := Option.some.inj hpool
      simp only [poolRoot] at hroot
      split at hroot
      · rename_i hparent
        exact Tenant.mem_tenantRootPoolCIDRs hsees (mem_of_lookup ho) hne hparent hroot
      · cases hroot
    | class_ | claim | allocation => cases hpool

def listing : Stmt → List Unit
  | .select => [()]
  | _ => []

def listed : Lock ⊕ Unit := .inr ()

abbrev noted : Transaction.Database Stmt Res Err Db Effect (Lock ⊕ Unit) := postgres.noting listing

def notedLocking : Discipline noted (noteConflict true Lock.conflicts) := objectLocking.noting listing true

def objectSlots : Slots notedLocking Key (Option Object) where
  slot k s := s.object k
  lock k := .inl (.object k)
  frame _ _ s h := object_apply (fun hk => h (List.mem_map_of_mem hk)) s
  respects := object_respects
  agree _ _ _ h := h

def Falls (_ : Key) (v v' : Option Object) : Prop :=
  rootOf v' = none ∨ rootOf v' = rootOf v

theorem falls_refl (k : Key) (v : Option Object) : Falls k v v := Or.inr rfl

section

variable {project : String}

abbrev Quiet {α : Type} (project : String) (P : List (Lock ⊕ Unit) → Db → Prop) (p : Tx α)
    (Q : α → List (Lock ⊕ Unit) → Db → Prop) : Prop :=
  objectSlots.Triple (RootsApart project) listed (RootsFall project) Falls P p Q

abbrev Lasting (project : String) (P : List (Lock ⊕ Unit) → Db → Prop) : Prop :=
  Slots.Stable (RootsApart project) listed (RootsFall project) notedLocking P

structure Holds (k : Key) (root : Option IPNet) (held : List (Lock ⊕ Unit)) (c : Db) : Prop where
  lock : .inl (.object k) ∈ held
  root : root = none ∨ root = rootOf (c.object k)

theorem holds_lasting (k : Key) (root : Option IPNet) : Lasting project (Holds k root) := by
  intro held ls c c' h hc
  have hsame : c'.object k = c.object k := hc.agree _ h.lock
  exact ⟨List.mem_append_left _ h.lock, by rw [hsame]; exact h.root⟩

theorem true_lasting : Lasting project fun _ _ => True :=
  fun _ _ _ _ _ _ => trivial

theorem related_of_same {c s s' : Db} (h : ∀ k, s'.object k = s.object k) (hs : objectSlots.Related Falls c s) :
    objectSlots.Related Falls c s' := by
  intro k
  have hk : objectSlots.slot k s' = objectSlots.slot k s := h k
  rw [hk]
  exact hs k

theorem related_put {c s : Db} {k : Key} {o : Object} (ho : Falls k (c.object k) (some o))
    (hs : objectSlots.Related Falls c s) : objectSlots.Related Falls c (Effect.apply (.putObject k o) s) := by
  intro k'
  have hslot : objectSlots.slot k' (Effect.apply (.putObject k o) s) = if k' = k then some o else s.object k' :=
    object_putObject s k k' o
  rw [hslot]
  split
  · rename_i hk
    rw [hk]
    exact ho
  · exact hs k'

theorem related_remove {c s : Db} (k : Key) (hs : objectSlots.Related Falls c s) :
    objectSlots.Related Falls c (Effect.apply (.removeObject k) s) := by
  intro k'
  have hslot : objectSlots.slot k' (Effect.apply (.removeObject k) s) = if k = k' then none else s.object k' :=
    object_removeObject s k k'
  rw [hslot]
  split
  · exact Or.inl rfl
  · exact hs k'

def Effect.Plain (e : Effect) : Prop := ∀ k, .object k ∉ e.footprint

variable {P : List (Lock ⊕ Unit) → Db → Prop} {α : Type}

theorem quiet_of_plain (hP : Lasting project P) {p : Tx α} (hp : Emits postgres Effect.Plain p) :
    Quiet project P p fun _ => P := by
  apply Slots.Triple.of_emits falls_refl hP hp.noting
  intro e held c s he _ hs
  exact related_of_same (fun k => object_apply (he k) s) hs

theorem quiet_lockObject (hP : Lasting project P) (k : Key) :
    Quiet project P (send (.lockObject k)) fun o held c =>
      P held c ∧ ∀ pool, asPool o = some pool → Holds k (poolRoot pool) held c := by
  apply Slots.Triple.call falls_refl hP
  intro log held c o es hcalm hPc hexec
  have hread : exec (.lockObject k) (noted.view log c) = .ok (o, es) := hexec
  obtain ⟨rfl, rfl⟩ := Prod.mk.inj (Except.ok.inj hread)
  have hrefl : notedLocking.Others (RootsApart project) listed (RootsFall project) held c c :=
    Discipline.Others.refl notedLocking hcalm.inv
  refine ⟨by simpa using hcalm.related, hP _ _ _ _ hPc hrefl, ?_⟩
  intro pool hpool
  have hsome : ((noted.view log c).object k).isSome = true := by
    cases ho : (noted.view log c).object k with
    | none =>
      rw [ho] at hpool
      cases hpool
    | some o => rfl
  have hlocks : noted.locks (.lockObject k) (noted.view log c) = [.inl (.object k)] := by
    change (if ((noted.view log c).object k).isSome = true then [Lock.object k] else []).map Sum.inl ++ [] = _
    rw [if_pos hsome]
    rfl
  refine ⟨by rw [hlocks]; simp, ?_⟩
  have hroot : rootOf ((noted.view log c).object k) = poolRoot pool := by
    simp only [rootOf, hpool, Option.bind_some]
  rw [← hroot]
  exact hcalm.related k

theorem quiet_sendAll {β : Type} {f : β → Tx Unit} {as : List β}
    (h : ∀ a ∈ as, Quiet project P (f a) fun _ => P) : Quiet project P (sendAll f as) fun _ => P := by
  induction as with
  | nil => exact .pure fun _ _ h => h
  | cons a as ih =>
    apply Slots.Triple.bind (h a List.mem_cons_self)
    exact fun _ => ih fun b hb => h b (List.mem_cons_of_mem _ hb)

theorem quiet_upkeep {k : Key} {pool : IPPool} {p : Tx α}
    (hp : Emits postgres (fun e => Effect.Plain e ∨ Effect.Publishes k pool e) p) :
    Quiet project (Holds k (poolRoot pool)) p fun _ => Holds k (poolRoot pool) := by
  apply Slots.Triple.of_emits falls_refl (holds_lasting k _) hp.noting
  rintro e held c s (hplain | ⟨parents, n, rfl⟩) hholds hs
  · exact related_of_same (fun k => object_apply (hplain k) s) hs
  · exact related_put hholds.root hs

theorem books_plain {emptyDigest : String} {k : Key} {e : Effect} (h : Effect.Books emptyDigest k e) :
    Effect.Plain e := by
  intro k' hk'
  cases e with
  | putObject | removeObject => exact h
  | _ => simp [Effect.footprint] at hk'

theorem insertRow_plain (r : Row) : Effect.Plain (.insertRow r) := by
  intro k hk
  simp [Effect.footprint] at hk

theorem upkeep_plain {emptyDigest : String} {k : Key} {pool : IPPool} {e : Effect}
    (h : Effect.Upkeep emptyDigest k pool e) : Effect.Plain e ∨ Effect.Publishes k pool e :=
  h.imp_left books_plain

theorem recordBlock_plain (pool : IPPool) (parents : List IPNet) (block : IPNet) (row : Cidr → Row) (k : Key) :
    Emits postgres (fun e => Effect.Plain e ∨ Effect.Publishes k pool e) (recordBlock pool parents block row k) := by
  apply (consumptionAfterAllocate_emits k parents block).bind
  intro consumed
  apply (Emits.ofOption _).bind
  intro text
  have hinsert : Emits postgres (fun e => Effect.Plain e ∨ Effect.Publishes k pool e)
      (send (.insertAllocation (row text))) := by
    apply Emits.call
    intro s r es hexec e he
    have h : exec (.insertAllocation (row text)) s = .ok (r, es) := hexec
    simp only [exec] at h
    cases hins : insertRow s (row text) with
    | error e =>
      rw [hins] at h
      cases h
    | ok es' =>
      rw [hins] at h
      cases h
      rw [insertRow_ok hins] at he
      rw [List.mem_singleton.mp he]
      exact Or.inl (insertRow_plain _)
  apply hinsert.bind
  intro _
  apply ((writeConsumed_books "" k consumed).mono fun _ h => Or.inl (books_plain h)).bind
  intro _
  exact ((persistPoolCapacity_publishes k parents pool consumed).mono fun _ => Or.inr).bind fun _ => trivial

theorem takeBlock_plain (emptyDigest : String) (k : Key) (digest : String) (n : ℤ) (row : Cidr → Row) (pool : IPPool)
    (parents : List IPNet) : Emits postgres (fun e => Effect.Plain e ∨ Effect.Publishes k pool e)
      (takeBlock emptyDigest k digest n row pool parents) := by
  apply ((materialiseReservations_upkeep emptyDigest k parents pool).mono fun _ => upkeep_plain).bind
  intro _
  apply ((findBlock_books emptyDigest k digest parents n pool.strategy).mono fun _ h => Or.inl (books_plain h)).bind
  exact fun block => recordBlock_plain pool parents block row k

theorem quiet_allocatePrefix (emptyDigest : String) (req : PrefixRequest) :
    Quiet project (fun _ _ => True) (allocatePrefix emptyDigest req) fun _ _ _ => True := by
  apply Slots.Triple.bind (quiet_lockObject true_lasting req.poolKey)
  intro o
  apply Slots.Triple.bind (Slots.Triple.ofOption (Q := fun pool => Holds req.poolKey (poolRoot pool))
    fun pool hpool _ _ h => h.2 pool hpool)
  intro pool
  have hrest : Emits postgres (fun e => Effect.Plain e ∨ Effect.Publishes req.poolKey pool e)
      (parsePoolCIDR pool >>= takeBlock emptyDigest req.poolKey (searchDigest emptyDigest req.scopeDigest) req.prefixLen
        (req.row emptyDigest) pool) := by
    have hparse : Emits postgres (fun e => Effect.Plain e ∨ Effect.Publishes req.poolKey pool e) (parsePoolCIDR pool) :=
      (Emits.ofOption _).bind fun _ => trivial
    exact hparse.bind fun parents => takeBlock_plain _ _ _ _ _ pool parents
  exact (quiet_upkeep hrest).mono (fun _ _ h => h) fun _ _ _ _ => trivial

theorem quiet_publishRelease (old : Row) :
    Quiet project (fun _ _ => True) (publishRelease old) fun _ _ _ => True := by
  apply Slots.Triple.bind (quiet_lockObject true_lasting old.poolKey)
  intro o
  cases asPool o with
  | none => exact .pure fun _ _ _ => trivial
  | some pool =>
    have hsettle : Quiet project (Holds old.poolKey (poolRoot pool)) (settleRelease old pool) _ :=
      quiet_upkeep ((settleRelease_upkeep "" old pool).mono fun _ => upkeep_plain)
    exact hsettle.mono (fun _ _ h => h.2 pool rfl) fun _ _ _ _ => trivial

theorem deleteRows_plain (cond : DeleteCond) : Emits postgres Effect.Plain (send (.deleteAllocations cond)) := by
  apply Emits.call
  intro s r es hexec e he
  obtain ⟨-, rfl⟩ := Prod.mk.inj (Except.ok.inj hexec)
  obtain ⟨row, -, rfl⟩ := List.mem_map.mp he
  intro k hk
  simp [Effect.footprint] at hk

theorem retainRows_plain (claim : Key) : Emits postgres Effect.Plain (send (.retainAllocations claim)) := by
  apply Emits.call
  intro s r es hexec e he
  obtain ⟨-, rfl⟩ := Prod.mk.inj (Except.ok.inj hexec)
  obtain ⟨key, -, rfl⟩ := List.mem_map.mp he
  intro k hk
  simp [Effect.footprint] at hk

theorem lowerSearchFloor_plain (old : Row) : Emits postgres Effect.Plain (lowerSearchFloor old) := by
  apply (lowerSearchFloor_emits old).mono
  rintro e ⟨digest, floor, rfl⟩ k hk
  simp [Effect.footprint] at hk

theorem quiet_deleteAllocations (cond : DeleteCond) :
    Quiet project (fun _ _ => True) (deleteAllocations cond) fun _ _ _ => True := by
  apply Slots.Triple.bind (quiet_of_plain true_lasting (deleteRows_plain cond))
  intro released
  apply Slots.Triple.bind (quiet_of_plain true_lasting (emits_sendAll fun old _ => lowerSearchFloor_plain old))
  exact fun _ => quiet_sendAll fun old _ => quiet_publishRelease old

theorem quiet_release (claim : Key) : Quiet project (fun _ _ => True) (release claim) fun _ _ _ => True := by
  apply Slots.Triple.bind (quiet_of_plain true_lasting (retainRows_plain claim))
  intro retained
  apply Slots.Triple.bind (quiet_deleteAllocations _)
  exact fun _ => .pure fun _ _ _ => trivial

theorem quiet_deleteObject (k : Key) :
    Quiet project (fun _ _ => True) (send (.deleteObject k)) fun _ _ _ => True := by
  apply Slots.Triple.call falls_refl true_lasting
  intro log held c r es hcalm _ hexec
  obtain ⟨-, rfl⟩ := deleteObject_ok hexec
  rw [noted.view_append]
  exact ⟨related_remove k hcalm.related, trivial⟩

theorem quiet_insertObject (hP : Lasting project P) {k : Key} {o : Object} (ho : rootOf (some o) = none) :
    Quiet project P (send (.insertObject k o)) fun _ _ _ => True := by
  apply Slots.Triple.call falls_refl hP
  intro log held c r es hcalm _ hexec
  obtain ⟨-, rfl⟩ := insertObject_ok hexec
  rw [noted.view_append]
  exact ⟨related_put (Or.inl ho) hcalm.related, trivial⟩

theorem quiet_updateObject {k : Key} {root : Option IPNet} {o : Object} (ho : rootOf (some o) = root) :
    Quiet project (Holds k root) (send (.updateObject k o)) fun _ _ _ => True := by
  subst ho
  apply Slots.Triple.call falls_refl (holds_lasting k _)
  intro log held c r es hcalm hholds hexec
  obtain ⟨-, rfl⟩ := updateObject_ok hexec
  rw [noted.view_append]
  exact ⟨related_put hholds.root hcalm.related, trivial⟩

theorem offeredSpaces_emits {good : Effect → Prop} (project : String) (names : List String) :
    Emits postgres good (offeredSpaces project names) := by
  induction names with
  | nil => trivial
  | cons name rest ih =>
    apply (emits_read (q := .getObject (classStorageKey project name)) fun _ => rfl).bind
    exact fun _ => ih.bind fun _ => trivial

theorem validateClassOffers_emits {good : Effect → Prop} (project : String) (pool : IPPool) :
    Emits postgres good (validateClassOffers project pool) := by
  simp only [validateClassOffers]
  split
  · trivial
  · apply (offeredSpaces_emits project _).bind
    intro spaces
    split <;> trivial

theorem poolGet_emits {good : Effect → Prop} (key : Key) : Emits postgres good (ipPoolStrategy.get key) :=
  (emits_read (q := .getObject key) fun _ => rfl).bind fun _ => Emits.ofOption _

theorem setPoolStatusCapacity_spec (pool : IPPool) (parents : List IPNet) :
    (setPoolStatusCapacity pool parents).parentPoolRef = pool.parentPoolRef ∧
      (setPoolStatusCapacity pool parents).cidr = pool.cidr := by
  simp only [setPoolStatusCapacity]
  split <;> exact ⟨rfl, rfl⟩

theorem preparePoolForCreate_spec (pool : IPPool) :
    (preparePoolForCreate pool).parentPoolRef = pool.parentPoolRef ∧ (preparePoolForCreate pool).cidr = pool.cidr := by
  simp only [preparePoolForCreate]
  split
  · exact setPoolStatusCapacity_spec _ _
  · exact ⟨rfl, rfl⟩

theorem quiet_createChildPool (emptyDigest : String) {req : PoolRequest} {parent : String}
    (hparent : req.pool.parentPoolRef = some parent) :
    Quiet project (fun _ _ => True) (createChildPool emptyDigest req parent) fun _ _ _ => True := by
  simp only [createChildPool]
  split
  · exact .throw
  split
  · exact .throw
  apply Slots.Triple.bind (quiet_of_plain true_lasting (poolGet_emits _))
  intro parentPool
  apply Slots.Triple.bind (Slots.Triple.ofOption (Q := fun _ _ _ => True) fun _ _ _ _ _ => trivial)
  intro _
  apply Slots.Triple.bind (quiet_allocatePrefix emptyDigest _)
  intro cidr
  have hchild : rootOf (some (.pool (setPoolStatusCapacity
      { preparePoolForCreate req.pool with allocatedCIDR := some cidr } [cidr.net]))) = none := by
    have hready := (setPoolStatusCapacity_spec { preparePoolForCreate req.pool with allocatedCIDR := some cidr }
      [cidr.net]).1
    have hprepared := (preparePoolForCreate_spec req.pool).1
    simp only [rootOf, asPool, Object.asPool, Option.bind_some, poolRoot]
    rw [if_neg]
    rw [hready, hprepared, hparent]
    simp
  apply Slots.Triple.bind (quiet_insertObject true_lasting hchild)
  exact fun _ => .pure fun _ _ _ => trivial

theorem quiet_poolCreate {req : PoolRequest} (hP : Lasting project P) (hparent : req.pool.parentPoolRef ≠ none) :
    Quiet project P (ipPoolStrategy.create req.project req.key req.pool req.admitted) fun _ _ _ => True := by
  have hchild : rootOf (some (ipPoolStrategy.encode (ipPoolStrategy.prepareForCreate req.pool))) = none := by
    have hprepared := (preparePoolForCreate_spec req.pool).1
    simp only [rootOf, asPool, ipPoolStrategy, Object.asPool, Option.bind_some, poolRoot]
    rw [if_neg]
    rw [hprepared]
    exact hparent
  simp only [Strategy.create]
  split
  · exact .throw
  split
  · exact .throw
  split
  · exact .throw
  apply Slots.Triple.bind (quiet_insertObject hP hchild)
  exact fun _ => .pure fun _ _ _ => trivial

theorem poolRoot_of_validateUpdate (name : String) {new old : IPPool}
    (h : ipPoolStrategy.validateUpdate name new old = true) : poolRoot new = poolRoot old := by
  simp only [ipPoolStrategy, Bool.and_eq_true, decide_eq_true_eq] at h
  obtain ⟨⟨⟨⟨-, hcidr⟩, -⟩, hparent⟩, -⟩ := h
  simp only [poolRoot, hcidr, hparent]

theorem quiet_poolReplace {req : PoolRequest} {old : IPPool} :
    Quiet project (Holds req.key (poolRoot old))
      (ipPoolStrategy.replace req.key req.pool old req.admitted (validateClassOffers req.project))
      fun _ _ _ => True := by
  simp only [Strategy.replace]
  split
  · exact .throw
  rename_i hvalid
  split
  · exact .throw
  apply Slots.Triple.bind (quiet_of_plain (holds_lasting _ _) (validateClassOffers_emits _ _))
  intro _
  split
  · exact .pure fun _ _ _ => trivial
  · have hroot : rootOf (some (ipPoolStrategy.encode (ipPoolStrategy.prepareForUpdate req.pool old))) = poolRoot old :=
      poolRoot_of_validateUpdate (keyName req.key) (by simpa using hvalid)
    apply Slots.Triple.bind (quiet_updateObject hroot)
    exact fun _ => .pure fun _ _ _ => trivial

theorem quiet_updatePool {req : PoolRequest} {force : Bool} (hforce : force = true → req.pool.parentPoolRef ≠ none) :
    Quiet project (fun _ _ => True) (updatePoolTx req force) fun _ _ _ => True := by
  apply Slots.Triple.bind (quiet_lockObject true_lasting req.key)
  intro o
  cases o with
  | none =>
    cases force with
    | true => exact (quiet_poolCreate true_lasting (hforce rfl)).mono (fun _ _ _ => trivial) fun _ _ _ h => h
    | false => exact .throw
  | some o =>
    apply Slots.Triple.bind (Slots.Triple.ofOption (Q := fun old => Holds req.key (poolRoot old))
      fun old hold _ _ h => h.2 old hold)
    exact fun old => quiet_poolReplace

theorem quiet_poolDelete (key : Key) (admitted : Bool) :
    Quiet project (fun _ _ => True) (ipPoolStrategy.delete key admitted) fun _ _ _ => True := by
  apply Slots.Triple.bind (quiet_lockObject true_lasting key)
  intro o
  apply Slots.Triple.bind (Slots.Triple.ofOption (Q := fun _ _ _ => True) fun _ _ _ _ _ => trivial)
  intro _
  cases admitted with
  | true => exact quiet_deleteObject key
  | false => exact .throw

theorem quiet_deleteChildPool (key : Key) :
    Quiet project (fun _ _ => True) (deleteChildPool key) fun _ _ _ => True := by
  apply Slots.Triple.bind (quiet_deleteAllocations _)
  intro _
  apply Slots.Triple.bind (quiet_release key)
  exact fun _ => quiet_deleteObject key

end

def createRootRequest (req : PoolRequest) : Tx IPPool := do
  validateClassOffers req.project req.pool
  validateNoRootOverlap req.project req.name req.pool
  createRootPool req

/-- The transactions of the pool requests of a project. Those of a request that only reads are left out. With
`forced`, an update may create a root pool. -/
inductive PoolRequestTxn (emptyDigest project : String) (forced : Bool) : Tx Unit → Prop where
  | createRoot (req : PoolRequest) (hproject : req.project = project) (hroot : req.pool.parentPoolRef = none) :
      PoolRequestTxn emptyDigest project forced (createRootRequest req).void
  | createChild (req : PoolRequest) (parent : String) (hproject : req.project = project)
      (hparent : req.pool.parentPoolRef = some parent) :
      PoolRequestTxn emptyDigest project forced
        (validateClassOffers req.project req.pool >>= fun _ => createChildPool emptyDigest req parent).void
  | update (req : PoolRequest) (force : Bool) (hproject : req.project = project)
      (hforce : forced = false → force = true → req.pool.parentPoolRef ≠ none) :
      PoolRequestTxn emptyDigest project forced (updatePoolTx req force).void
  | releaseReservations (name : String) :
      PoolRequestTxn emptyDigest project forced (releasePoolReservations (poolStorageKey project name)).void
  | deleteRoot (name : String) (admitted : Bool) :
      PoolRequestTxn emptyDigest project forced (ipPoolStrategy.delete (poolStorageKey project name) admitted).void
  | deleteChild (name : String) :
      PoolRequestTxn emptyDigest project forced (deleteChildPool (poolStorageKey project name)).void

theorem rootAt_put {req : PoolRequest} {s : Db} {o : Object} (name : String) :
    rootAt req.project name (Effect.apply (.putObject req.key o) s) =
      if name = req.name then rootOf (some o) else rootAt req.project name s := by
  simp only [rootAt, object_putObject, PoolRequest.key, poolStorageKey, Key.object.injEq, true_and]
  split <;> rfl

theorem RootsApart.put {req : PoolRequest} {s s' : Db} {candidate : IPNet} {o : Object}
    (hsees : Tenant.SeesOwn req.project.toList) (ho : rootOf (some o) = some candidate)
    (hfree : (tenantRootPoolCIDRs req.project req.name s).any (fun other => cidrsOverlap candidate other.2) = false)
    (hfall : RootsFall req.project s s') (h : RootsApart req.project s') :
    RootsApart req.project (Effect.apply (.putObject req.key o) s') := by
  have happart : ∀ name b, name ≠ req.name → rootAt req.project name s' = some b →
      ∀ ip, ¬ (candidate.contains ip = true ∧ b.contains ip = true) := by
    intro name b hne hb ip hip
    have hb' : rootAt req.project name s = some b := by
      rcases hfall name with hnone | hsame
      · rw [hnone] at hb
        cases hb
      · rwa [hsame] at hb
    have hoverlap := cidrsOverlap_of_meet hip.1 hip.2
    rw [List.any_eq_false] at hfree
    exact hfree (name, b) (mem_tenantRootPoolCIDRs hsees hne hb') hoverlap
  intro name name' a b hne ha hb
  rw [rootAt_put] at ha hb
  split at ha
  · rename_i hname
    rw [if_neg fun hname' => hne (hname.trans hname'.symm)] at hb
    obtain rfl := Option.some.inj (ho.symm.trans ha)
    exact happart name' b (fun hname' => hne (hname.trans hname'.symm)) hb
  · split at hb
    · obtain rfl := Option.some.inj (ho.symm.trans hb)
      rename_i hname _
      intro ip hip
      exact happart name a hname ha ip hip.symm
    · exact h name name' a b hne ha hb

theorem rootOf_prepared {req : PoolRequest} (hroot : req.pool.parentPoolRef = none) :
    rootOf (some (ipPoolStrategy.encode (ipPoolStrategy.prepareForCreate req.pool))) = req.pool.cidr := by
  obtain ⟨hparent, hcidr⟩ := preparePoolForCreate_spec req.pool
  change (if (preparePoolForCreate req.pool).parentPoolRef = none then (preparePoolForCreate req.pool).cidr else none) = _
  rw [hparent, hcidr, if_pos hroot]

theorem createRootPool_safe {req : PoolRequest} {candidate : IPNet} (hsees : Tenant.SeesOwn req.project.toList) (hroot : req.pool.parentPoolRef = none)
    (hcidr : req.pool.cidr = some candidate) {s : Db}
    (hfree : (tenantRootPoolCIDRs req.project req.name s).any (fun other => cidrsOverlap candidate other.2) = false)
    {held : List (Lock ⊕ Unit)} (hlisted : listed ∈ held) {c : Db} (hc : RootsFall req.project s c) :
    notedLocking.Safe (RootsApart req.project) listed (RootsFall req.project) (createRootPool req).void [] held c := by
  simp only [createRootPool, Strategy.create]
  split
  · trivial
  split
  · trivial
  split
  · trivial
  intro c' hc'
  have hroot' := (rootOf_prepared hroot).trans hcidr
  have hexec : ∀ o, noted.exec (.insertObject req.key o) (noted.view [] c') =
      if (c'.object req.key).isSome then .error .objectExists else .ok ((), [.putObject req.key o]) := fun _ => rfl
  simp only [hexec]
  split
  · trivial
  rename_i r es hstored
  split at hstored
  · cases hstored
  cases hstored
  intro c'' hc''
  have hfall : RootsFall req.project s c'' := by
    have hfirst := IsTrans.trans _ _ _ hc (hc'.frozen hlisted)
    exact IsTrans.trans _ _ _ hfirst (hc''.frozen (List.mem_append_left _ hlisted))
  exact ⟨RootsApart.put hsees hroot' hfree hfall hc''.inv, Or.inl (List.mem_append_left _ hlisted), trivial⟩

theorem createRootPool_unranged {req : PoolRequest} (hroot : req.pool.parentPoolRef = none)
    (hcidr : req.pool.cidr = none) : createRootPool req = .throw .invalid := by
  obtain ⟨hparent, hprepared⟩ := preparePoolForCreate_spec req.pool
  have hvalid : validateIPPool (preparePoolForCreate req.pool) = false := by
    simp [validateIPPool, hparent, hroot, hprepared, hcidr]
  have hinvalid : ipPoolStrategy.validate (keyName req.key) (ipPoolStrategy.prepareForCreate req.pool) = false := hvalid
  simp only [createRootPool, Strategy.create, hinvalid, Bool.false_eq_true, not_false_eq_true, if_true]

theorem createRootRequest_safe {req : PoolRequest} (hsees : Tenant.SeesOwn req.project.toList)
    (hroot : req.pool.parentPoolRef = none) {c : Db} (hc : RootsApart req.project c) :
    notedLocking.Safe (RootsApart req.project) listed (RootsFall req.project) (createRootRequest req).void [] [] c := by
  have hprog : (createRootRequest req).void = (validateClassOffers req.project req.pool).bind fun _ =>
      (validateNoRootOverlap req.project req.name req.pool).bind fun _ => (createRootPool req).void := by
    simp only [createRootRequest, Prog.void, bind_bind]
    rfl
  rw [hprog]
  apply Database.wp_bind
  have hoffers : Emits noted (fun _ => False) (validateClassOffers req.project req.pool) :=
    (validateClassOffers_emits req.project req.pool).noting
  apply Database.wp_mono (notedLocking.wp_emits hoffers hc) _ fun _ _ _ _ h => h
  rintro _ log held c' ⟨⟨es, hlog, hes⟩, -, -⟩
  have hnil : es = [] := List.eq_nil_iff_forall_not_mem.mpr hes
  obtain rfl : log = [] := by rw [hlog, hnil, List.append_nil]
  cases hcidr : req.pool.cidr with
  | none =>
    have hcheck : validateNoRootOverlap req.project req.name req.pool = .pure () := by
      simp only [validateNoRootOverlap, hroot, hcidr]
      rfl
    rw [hcheck, createRootPool_unranged hroot hcidr]
    trivial
  | some candidate =>
    have hcheck : validateNoRootOverlap req.project req.name req.pool = Prog.step .select fun s : Db =>
        if (tenantRootPoolCIDRs req.project req.name s).any (fun other => cidrsOverlap candidate other.2) then .throw .conflict
        else .pure () := by
      simp only [validateNoRootOverlap, hroot, hcidr]
      rfl
    rw [hcheck]
    intro c'' hc''
    change notedLocking.Safe (RootsApart req.project) listed (RootsFall req.project)
      (Prog.bind (if (tenantRootPoolCIDRs req.project req.name c'').any (fun other => cidrsOverlap candidate other.2) then .throw .conflict
        else .pure ()) fun _ => (createRootPool req).void) [] (held ++ [listed]) c''
    split
    · trivial
    · rename_i hfree
      exact createRootPool_safe hsees hroot hcidr (by simpa using hfree) (by simp) (Std.Refl.refl c'')

theorem requestTxn_safe {emptyDigest project : String} (hsees : Tenant.SeesOwn project.toList) {p : Tx Unit}
    (hp : PoolRequestTxn emptyDigest project false p) {c : Db} (hc : RootsApart project c) :
    notedLocking.Safe (RootsApart project) listed (RootsFall project) p [] [] c := by
  have hquiet : ∀ {α : Type} {q : Tx α}, Quiet project (fun _ _ => True) q (fun _ _ _ => True) →
      notedLocking.Safe (RootsApart project) listed (RootsFall project) q.void [] [] c := by
    intro α q hq
    have hfall : ∀ c s, RootsApart project c → RootsFall project c s → RootsApart project s := fun _ _ => RootsApart.fall
    exact hq.safe falls_refl (fun _ _ => trivial) (fun _ _ h name => h (poolStorageKey project name)) hfall hc
  cases hp with
  | createRoot req hproject hroot =>
    subst hproject
    exact createRootRequest_safe hsees hroot hc
  | createChild req parent _ hparent =>
    apply hquiet
    apply Slots.Triple.bind (quiet_of_plain true_lasting (validateClassOffers_emits _ _))
    exact fun _ => quiet_createChildPool emptyDigest hparent
  | update req force _ hforce => exact hquiet (quiet_updatePool (hforce rfl))
  | releaseReservations name => exact hquiet (quiet_deleteAllocations _)
  | deleteRoot name admitted => exact hquiet (quiet_poolDelete _ admitted)
  | deleteChild name => exact hquiet (quiet_deleteChildPool _)

/-- In every run in which root pools are brought into existence by Create only, and no transaction lists the root
pools while another open one has listed them, no committed state holds two root pools of the project that share an
address, provided that the listing shows the project its own pools. -/
theorem rootPools_apart {emptyDigest project : String} {init : Db} (hsees : Tenant.SeesOwn project.toList)
    (hinit : RootsApart project init)
    {w : World Stmt Res Err Db Effect (Lock ⊕ Unit)}
    (h : Reachable noted (noteConflict false Lock.conflicts) (PoolRequestTxn emptyDigest project false)
      (NotesApart listing) init w) : RootsApart project w.committed := by
  have hguard : noteConflict true Lock.conflicts listed listed = true := rfl
  apply notedLocking.reachable_inv (R := RootsFall project) hguard hinit _ h.strict
  exact fun p hp c hc => requestTxn_safe hsees hp hc

theorem notesApart_alone (w : World Stmt Res Err Db Effect (Lock ⊕ Unit)) (t : ℕ) (h : w.txns.length = 1) :
    NotesApart listing w (.exec t) := by
  intro q k log held hfind n _ y hy hne
  obtain ⟨x, hx⟩ := List.length_eq_one_iff.mp h
  have hmem := w.mem_of_find hfind
  rw [hx, List.mem_singleton] at hy hmem
  exact absurd (by rw [hy, ← hmem]) hne

def rootRequest (name : String) (range : Cidr) : PoolRequest where
  project := "infra"
  name := name
  pool := { poolOf range .unset with cidr := some range.net, ipFamily := some .v4, allocatedCIDR := none }
  admitted := true
  dryRun := []

def annexRange : Cidr := ⟨.v4, 10 * 2 ^ 24 + 2 ^ 8, 24, officePool.len_le, by decide, by decide, by decide⟩

theorem not_rootsApart {project : String} {s : Db} (h : decide (rootAt project "east" s = some officePool.net ∧
    rootAt project "west" s = some officePool.net) = true) : ¬ RootsApart project s := by
  obtain ⟨heast, hwest⟩ := of_decide_eq_true h
  intro hapart
  exact hapart "east" "west" _ _ (by decide) heast hwest officePool.ip (by decide)

theorem createRoot_requests {project : String} {forced : Bool} (reqs : List PoolRequest)
    (h : ∀ req ∈ reqs, req.project = project ∧ req.pool.parentPoolRef = none) :
    ∀ p ∈ reqs.map (fun req => (createRootRequest req).void), PoolRequestTxn "none" project forced p := by
  intro p hp
  obtain ⟨req, hreq, rfl⟩ := List.mem_map.mp hp
  exact .createRoot req (h req hreq).1 (h req hreq).2

theorem rootPools_apart_annex : ∃ w : World Stmt Res Err Db Effect (Lock ⊕ Unit),
    rootAt "infra" "east" w.committed = some officePool.net ∧ rootAt "infra" "west" w.committed = some annexRange.net ∧
      RootsApart "infra" w.committed := by
  have hreach : ∃ w, Reachable noted (noteConflict false Lock.conflicts) (PoolRequestTxn "none" "infra" false)
      (NotesApart listing) Db.empty w ∧
      decide (rootAt "infra" "east" w.committed = some officePool.net ∧
        rootAt "infra" "west" w.committed = some annexRange.net) = true :=
    Reachable.exists_of_runAll (f := fun s : Db => decide (rootAt "infra" "east" s = some officePool.net ∧
        rootAt "infra" "west" s = some annexRange.net)) notesApart_alone (fun _ _ _ => trivial) (fun _ _ _ => trivial)
      (createRoot_requests [rootRequest "east" officePool, rootRequest "west" annexRange] (by decide))
      (by decide +kernel)
  obtain ⟨w, hw, hroots⟩ := hreach
  obtain ⟨heast, hwest⟩ := of_decide_eq_true hroots
  have hinit : RootsApart "infra" Db.empty := by
    intro name name' a b _ ha
    cases ha
  have hsees : Tenant.SeesOwn "infra".toList := Tenant.seesOwn_of_not_mem (by decide +kernel)
  exact ⟨w, heast, hwest, rootPools_apart hsees hinit hw⟩

def racingSteps : List (Label Stmt Res Err) :=
  [.start 0 (createRootRequest (rootRequest "east" officePool)).void,
    .start 1 (createRootRequest (rootRequest "west" officePool)).void,
    .exec 0, .exec 1, .exec 0, .exec 1, .commit 0, .commit 1]

theorem racingSteps_requests (t : ℕ) (p : Tx Unit) (hp : .start t p ∈ racingSteps) :
    PoolRequestTxn "none" "infra" false p := by
  simp only [racingSteps, List.mem_cons, Label.start.injEq, List.not_mem_nil, or_false, reduceCtorEq] at hp
  rcases hp with ⟨-, rfl⟩ | ⟨-, rfl⟩
  · exact .createRoot _ rfl rfl
  · exact .createRoot _ rfl rfl

def appliedTxns : List (Tx Unit) :=
  [(createRootRequest (rootRequest "east" officePool)).void, (updatePoolTx (rootRequest "west" officePool) true).void]

theorem appliedTxns_requests (p : Tx Unit) (hp : p ∈ appliedTxns) : PoolRequestTxn "none" "infra" true p := by
  simp only [appliedTxns, List.mem_cons, List.not_mem_nil, or_false] at hp
  rcases hp with rfl | rfl
  · exact .createRoot _ rfl rfl
  · exact .update _ _ rfl (by simp)

/-- A backslash in the project's name escapes the character after it, so the pattern is not that of the name. -/
def escapedRequest (name : String) : PoolRequest :=
  { rootRequest name officePool with project := "a\\b" }

theorem rootPools_overlap :
    (∃ w, Reachable noted (noteConflict false Lock.conflicts) (PoolRequestTxn "none" "infra" false) (fun _ _ => True)
      Db.empty w ∧ ¬ RootsApart "infra" w.committed) ∧
    (∃ w, Reachable noted (noteConflict false Lock.conflicts) (PoolRequestTxn "none" "infra" true) (NotesApart listing)
      Db.empty w ∧ ¬ RootsApart "infra" w.committed) ∧
    ∃ w, Reachable noted (noteConflict false Lock.conflicts) (PoolRequestTxn "none" "a\\b" false) (NotesApart listing)
      Db.empty w ∧ ¬ RootsApart "a\\b" w.committed := by
  refine ⟨?_, ?_, ?_⟩
  · have hreach : ∃ w, Reachable noted (noteConflict false Lock.conflicts) (PoolRequestTxn "none" "infra" false)
        (fun _ _ => True) Db.empty w ∧ decide (rootAt "infra" "east" w.committed = some officePool.net ∧
          rootAt "infra" "west" w.committed = some officePool.net) = true :=
      Reachable.exists_of_steps (f := fun s : Db => decide (rootAt "infra" "east" s = some officePool.net ∧
        rootAt "infra" "west" s = some officePool.net)) (fun _ _ _ => trivial) racingSteps_requests (by decide +kernel)
    obtain ⟨w, hw, hroots⟩ := hreach
    exact ⟨w, hw, not_rootsApart hroots⟩
  · have hreach : ∃ w, Reachable noted (noteConflict false Lock.conflicts) (PoolRequestTxn "none" "infra" true)
        (NotesApart listing) Db.empty w ∧ decide (rootAt "infra" "east" w.committed = some officePool.net ∧
          rootAt "infra" "west" w.committed = some officePool.net) = true :=
      Reachable.exists_of_runAll (f := fun s : Db => decide (rootAt "infra" "east" s = some officePool.net ∧
        rootAt "infra" "west" s = some officePool.net)) notesApart_alone (fun _ _ _ => trivial) (fun _ _ _ => trivial)
        appliedTxns_requests (by decide +kernel)
    obtain ⟨w, hw, hroots⟩ := hreach
    exact ⟨w, hw, not_rootsApart hroots⟩
  · have hreach : ∃ w, Reachable noted (noteConflict false Lock.conflicts) (PoolRequestTxn "none" "a\\b" false)
        (NotesApart listing) Db.empty w ∧ decide (rootAt "a\\b" "east" w.committed = some officePool.net ∧
          rootAt "a\\b" "west" w.committed = some officePool.net) = true :=
      Reachable.exists_of_runAll (f := fun s : Db => decide (rootAt "a\\b" "east" s = some officePool.net ∧
        rootAt "a\\b" "west" s = some officePool.net)) notesApart_alone (fun _ _ _ => trivial) (fun _ _ _ => trivial)
        (createRoot_requests [escapedRequest "east", escapedRequest "west"] (by decide)) (by decide +kernel)
    obtain ⟨w, hw, hroots⟩ := hreach
    exact ⟨w, hw, not_rootsApart hroots⟩

end Ipam.Registry
