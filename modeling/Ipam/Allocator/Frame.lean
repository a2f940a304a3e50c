import Ipam.Allocator.PrefixSpec
import Ipam.Lib.Emits

namespace Ipam.Allocator

open Allocation Database Transaction

def Effect.On (k : Key) : Effect → Prop
  | .putObject k' o => k' = k ∧ o.asPool ≠ none
  | .insertRow r => r.poolKey = k
  | .deleteRow pool _ => pool = k
  | .insertFloor pool _ _ => pool = k
  | .setFloor pool _ _ => pool = k
  | .putConsumed pool _ => pool = k
  | .removeObject _ => False
  | .setClaimKey _ _ => False
  | .insertIdentity _ => False

def Effect.Off (k : Key) (e : Effect) : Prop :=
  ∀ x, PoolState.apply k e x = x

theorem Effect.On.off {k k' : Key} {e : Effect} (h : Effect.On k' e) (hne : k' ≠ k) : Effect.Off k e := by
  intro x
  cases e with
  | putObject k₀ o => exact if_neg (h.1 ▸ hne)
  | insertRow r => exact if_neg (h.symm ▸ hne)
  | deleteRow pool key => exact if_neg (h.symm ▸ hne)
  | insertFloor pool d floor => exact if_neg (h.symm ▸ hne)
  | setFloor pool d floor => exact if_neg (h.symm ▸ hne)
  | putConsumed pool n => exact if_neg (h.symm ▸ hne)
  | removeObject k₀ => exact h.elim
  | setClaimKey key claim => exact h.elim
  | insertIdentity i => exact h.elim

theorem poolState_view_off {k : Key} {es : List Effect} (h : ∀ e ∈ es, Effect.Off k e) (s : Db) :
    (postgres.view es s).poolState k = s.poolState k := by
  rw [poolState_view]
  induction es generalizing s with
  | nil => rfl
  | cons e es ih =>
    rw [List.foldl_cons, h e List.mem_cons_self]
    exact ih (fun e he => h e (List.mem_cons_of_mem _ he)) s

def Stmt.WritesTo (k : Key) : Stmt → Prop
  | .updateObject k' o => k' = k ∧ o.asPool ≠ none
  | .insertReservation r => r.poolKey = k
  | .insertAllocation r => r.poolKey = k
  | .lowerFloor pool _ _ => pool = k
  | .seedFloor pool _ _ => pool = k
  | .raiseFloor pool _ _ _ => pool = k
  | .writeConsumed pool _ => pool = k
  | .insertObject _ _ => False
  | .deleteObject _ => False
  | .retainAllocations _ => False
  | .deleteAllocations _ => False
  | .bindScopeRange _ _ => False
  | .claimPoolIdentity _ => False
  | _ => True

theorem insertRow_on {k : Key} {s : Db} {r : Row} {es : List Effect} (hr : r.poolKey = k)
    (h : insertRow s r = .ok es) : ∀ e ∈ es, Effect.On k e := by
  rcases insertRow_cases (s := s) hr with ⟨e, he, -⟩ | ⟨hins, -⟩
  · rw [he] at h
    cases h
  · rw [hins] at h
    obtain rfl := Except.ok.inj h
    intro e he
    rw [List.mem_singleton.mp he]
    exact hr

theorem exec_on {k : Key} {q : Stmt} (hq : Stmt.WritesTo k q) {s : Db} {r : Res q} {es : List Effect}
    (h : postgres.exec q s = .ok (r, es)) : ∀ e ∈ es, Effect.On k e := by
  have h' : exec q s = .ok (r, es) := h
  cases q with
  | insertReservation row =>
    simp only [exec] at h'
    split at h'
    · cases h'
      simp
    · cases hins : insertRow s row with
      | error e =>
        rw [hins] at h'
        cases h'
      | ok es' =>
        rw [hins] at h'
        cases h'
        exact insertRow_on hq hins
  | insertAllocation row =>
    simp only [exec] at h'
    cases hins : insertRow s row with
    | error e =>
      rw [hins] at h'
      cases h'
    | ok es' =>
      rw [hins] at h'
      cases h'
      exact insertRow_on hq hins
  | insertObject | deleteObject | retainAllocations | deleteAllocations | bindScopeRange | claimPoolIdentity =>
    exact hq.elim
  | updateObject | lowerFloor | seedFloor | raiseFloor | writeConsumed =>
    simp only [exec] at h'
    repeat' split at h'
    all_goals
      cases h'
      try simp [Effect.On]
      try exact hq
  | _ =>
    cases h'
    simp

theorem emits_send {k : Key} {q : Stmt} (hq : Stmt.WritesTo k q) : Emits postgres (Effect.On k) (send q) :=
  Emits.call fun _ _ _ h => exec_on hq h

theorem emits_read {good : Effect → Prop} {q : Stmt} {f : Db → Res q} (h : ∀ s, exec q s = .ok (f s, [])) :
    Emits postgres good (send q) := by
  apply Emits.call
  intro s r es hexec
  have hread := (h s).symm.trans hexec
  obtain ⟨-, rfl⟩ := Prod.mk.inj (Except.ok.inj hread)
  simp

theorem emits_sendAll {good : Effect → Prop} {α : Type} {f : α → Tx Unit} {as : List α}
    (h : ∀ a ∈ as, Emits postgres good (f a)) : Emits postgres good (sendAll f as) := by
  induction as with
  | nil => trivial
  | cons a as ih =>
    exact (h a List.mem_cons_self).bind fun _ => ih fun b hb => h b (List.mem_cons_of_mem _ hb)

def Effect.OnFloor (k : Key) (e : Effect) : Prop :=
  ∃ digest floor, e = .insertFloor k digest floor ∨ e = .setFloor k digest floor

theorem Effect.OnFloor.on {k : Key} {e : Effect} (h : Effect.OnFloor k e) : Effect.On k e := by
  obtain ⟨digest, floor, rfl | rfl⟩ := h
  · exact rfl
  · exact rfl

section

variable {good : Effect → Prop} (k : Key) (digest : String) (n : ℤ) (pageSize : ℕ)

theorem searchPage_emits (parent : Cidr) (start : IP) (scan : Scan) :
    Emits postgres good (searchPage pageSize k digest parent start scan) := by
  apply (emits_read (q := .loadBlocksFrom k digest start.string parent pageSize) fun _ => rfl).bind
  intro page
  split
  · trivial
  · exact Emits.ofExcept _

theorem searchPass_emits (scan : Scan) : Emits postgres good (searchPass pageSize k digest scan) := by
  simp only [searchPass]
  split
  · trivial
  · rename_i parent start _
    apply (Emits.ofOption _).bind
    intro text
    apply (emits_read (q := .loadBlocksCovering k digest start.string text) fun _ => rfl).bind
    intro covering
    apply (Emits.ofExcept _).bind
    intro scan
    split
    · trivial
    split
    · trivial
    · exact searchPage_emits k digest pageSize text start scan

theorem searchLoop_emits (pages : ℕ) (scan : Scan) :
    Emits postgres good (searchLoop pageSize k digest pages scan) := by
  induction pages generalizing scan with
  | zero =>
    simp only [searchLoop]
    split <;> trivial
  | succ pages ih =>
    simp only [searchLoop]
    split
    · trivial
    · exact (searchPass_emits k digest pageSize scan).bind ih

theorem boundedFirstFit_emits (limit : ℕ) (parents : List IPNet) (hint : Option IP) :
    Emits postgres good (boundedFirstFit pageSize limit k digest parents n hint) := by
  apply (Emits.ofExcept _).bind
  intro scan
  apply (searchLoop_emits k digest pageSize limit scan).bind
  intro scan
  apply (Emits.ofExcept _).bind
  exact fun _ => trivial

theorem seedFloor_emits (base : IP) : Emits postgres (Effect.OnFloor k) (send (.seedFloor k digest base)) := by
  apply Emits.call
  intro s r es hexec
  have h : exec (.seedFloor k digest base) s = .ok (r, es) := hexec
  simp only [exec] at h
  split at h
  · cases h
    simp
  split at h
  · cases h
  · cases h
    simp [Effect.OnFloor]

theorem raiseSearchFloor_emits (observed next : Option IP) :
    Emits postgres (Effect.OnFloor k) (raiseSearchFloor k digest observed next) := by
  cases next with
  | none => trivial
  | some next =>
    cases observed with
    | none => exact seedFloor_emits k digest _
    | some observed =>
      apply Emits.call
      intro s r es hexec
      have h : exec (.raiseFloor k digest next.string observed.string) s = .ok (r, es) := hexec
      simp only [exec] at h
      split at h
      · cases h
        simp [Effect.OnFloor]
      · cases h
        simp

theorem findBlock_emits (parents : List IPNet) (strategy : Strategy) :
    Emits postgres (Effect.OnFloor k) (findBlock k digest parents n strategy) := by
  simp only [findBlock]
  split
  · apply (emits_read (q := .loadAllocations k digest) fun _ => rfl).bind
    exact fun _ => Emits.ofExcept _
  split
  · exact (boundedFirstFit_emits k spaceAll n searchPageSize _ parents none).bind fun _ => trivial
  split
  · trivial
  · rename_i parent rest
    have hlock : Emits postgres (Effect.OnFloor k) (lockSearchFloor k digest parent.ip) :=
      (seedFloor_emits k digest _).bind fun _ => emits_read (q := .lockFloor k digest) fun _ => rfl
    apply hlock.bind
    intro observed
    apply (boundedFirstFit_emits k digest n searchPageSize _ (parent :: rest) observed).bind
    intro found
    exact (raiseSearchFloor_emits k digest observed found.2).bind fun _ => trivial

variable (parents : List IPNet)

theorem seedConsumption_emits : Emits postgres good (seedConsumption k parents) := by
  apply (emits_read (q := .loadAllocations k spaceAll) fun _ => rfl).bind
  intro existing
  exact (Emits.ofExcept _).bind fun _ => trivial

theorem loadOverlapping_emits (block : IPNet) : Emits postgres good (loadOverlapping k block) := by
  apply (Emits.ofOption _).bind
  exact fun text => emits_read (q := .loadOverlapping k text) fun _ => rfl

theorem consumedOrSeed_emits : Emits postgres good (consumedOrSeed k parents) := by
  apply (emits_read (q := .readConsumed k) fun _ => rfl).bind
  intro recorded
  cases recorded with
  | some base => trivial
  | none => exact seedConsumption_emits k parents

theorem consumptionAfterAllocate_emits (block : IPNet) :
    Emits postgres good (consumptionAfterAllocate k parents block) := by
  apply (loadOverlapping_emits k block).bind
  intro overlapping
  apply (consumedOrSeed_emits k parents).bind
  intro base
  exact (Emits.ofExcept _).bind fun _ => trivial

theorem consumptionAfterRelease_emits (block : IPNet) :
    Emits postgres good (consumptionAfterRelease k parents block) := by
  apply (loadOverlapping_emits k block).bind
  intro overlapping
  apply (emits_read (q := .readConsumed k) fun _ => rfl).bind
  intro recorded
  cases recorded with
  | none => exact seedConsumption_emits k parents
  | some base => exact (Emits.ofExcept _).bind fun _ => trivial

theorem persistPoolCapacity_emits (pool : IPPool) (consumed : ℕ) :
    Emits postgres (Effect.On k) (persistPoolCapacity k pool parents consumed) :=
  emits_send ⟨rfl, by simp [Object.asPool]⟩

variable (emptyDigest : String)

theorem reserveBlocks_emits (blocks : List IPNet) (consumed : Option ℕ) :
    Emits postgres (Effect.On k) (reserveBlocks emptyDigest k parents blocks consumed) := by
  induction blocks generalizing consumed with
  | nil => trivial
  | cons block rest ih =>
    apply (consumptionAfterAllocate_emits k parents block).bind
    intro next
    have hinsert : Emits postgres (Effect.On k) (insertReservation emptyDigest k block) :=
      (Emits.ofOption _).bind fun text =>
        emits_send (q := .insertReservation (reservationRow emptyDigest k text)) rfl
    apply hinsert.bind
    intro inserted
    split
    · exact (emits_send (q := .writeConsumed k next) rfl).bind fun _ => ih (some next)
    · exact ih consumed

theorem materialiseReservations_emits (pool : IPPool) :
    Emits postgres (Effect.On k) (materialiseReservations emptyDigest k pool parents) := by
  simp only [materialiseReservations]
  split
  · trivial
  apply (emits_send (k := k) (q := .holdsReservations k) trivial).bind
  intro held
  split
  · trivial
  apply (Emits.ofExcept _).bind
  intro blocks
  apply (reserveBlocks_emits k parents emptyDigest blocks none).bind
  intro consumed
  cases consumed with
  | none => trivial
  | some consumed => exact persistPoolCapacity_emits k parents pool consumed

theorem recordBlock_emits (pool : IPPool) (block : IPNet) {row : Cidr → Row} (hrow : ∀ b, (row b).poolKey = k) :
    Emits postgres (Effect.On k) (recordBlock pool parents block row k) := by
  apply (consumptionAfterAllocate_emits k parents block).bind
  intro consumed
  apply (Emits.ofOption _).bind
  intro text
  apply (emits_send (q := .insertAllocation (row text)) (hrow text)).bind
  intro _
  apply (emits_send (q := .writeConsumed k consumed) rfl).bind
  intro _
  exact (persistPoolCapacity_emits k parents pool consumed).bind fun _ => trivial

theorem takeBlock_emits (pool : IPPool) {row : Cidr → Row} (hrow : ∀ b, (row b).poolKey = k) :
    Emits postgres (Effect.On k) (takeBlock emptyDigest k digest n row pool parents) := by
  apply (materialiseReservations_emits k parents emptyDigest pool).bind
  intro _
  apply ((findBlock_emits k digest n parents pool.strategy).mono fun _ => Effect.OnFloor.on).bind
  intro block
  exact recordBlock_emits k parents pool block hrow

theorem takeRange_emits (pool : IPPool) {row : Cidr → Row} (hrow : ∀ b, (row b).poolKey = k) :
    Emits postgres (Effect.On k) (takeRange emptyDigest k digest n row pool parents) := by
  apply (materialiseReservations_emits k parents emptyDigest pool).bind
  intro _
  apply ((findBlock_emits k digest n parents pool.strategy).mono fun _ => Effect.OnFloor.on).bind
  intro block
  exact (recordBlock_emits k parents pool block hrow).bind fun _ => trivial

end

theorem lockPool_emits {good : Effect → Prop} {α : Type} (k : Key) {f : Res (.lockObject k) → Tx α}
    (h : ∀ o, Emits postgres good (f o)) : Emits postgres good (Prog.call (.lockObject k) >>= f) := by
  rintro s o es hexec
  obtain ⟨-, rfl⟩ := Prod.mk.inj (Except.ok.inj hexec)
  exact ⟨by simp, h o⟩

theorem withPool_emits {good : Effect → Prop} {α : Type} (k : Key) {f : IPPool → List IPNet → Tx α}
    (h : ∀ pool parents, Emits postgres good (f pool parents)) : Emits postgres good (withPool k f) := by
  apply lockPool_emits
  intro o
  apply (Emits.ofOption _).bind
  intro pool
  have hparse : Emits postgres good (parsePoolCIDR pool) := (Emits.ofOption _).bind fun _ => trivial
  exact hparse.bind fun parents => h pool parents

theorem allocatePrefix_emits (emptyDigest : String) (req : PrefixRequest) :
    Emits postgres (Effect.On req.poolKey) (allocatePrefix emptyDigest req) := by
  rw [allocatePrefix_eq]
  exact withPool_emits _ fun pool parents =>
    takeBlock_emits req.poolKey _ _ parents emptyDigest pool fun _ => rfl

theorem carveFromPool_emits (emptyDigest : String) (k : Key) (n : ℤ) (carve : PoolCarve) :
    Emits postgres (Effect.On k) (carveFromPool emptyDigest k n carve) := by
  rw [carveFromPool_eq]
  exact withPool_emits _ fun pool parents => takeRange_emits k _ _ parents emptyDigest pool fun _ => rfl

theorem reservePool_emits (emptyDigest : String) (k : Key) :
    Emits postgres (Effect.On k) (reservePool emptyDigest k) := by
  rw [reservePool_eq]
  exact withPool_emits _ fun pool parents => materialiseReservations_emits k parents emptyDigest pool

def Effect.SetsFloor (k : Key) (e : Effect) : Prop :=
  ∃ digest floor, e = .setFloor k digest floor

theorem lowerFloor_emits (pool : Key) (digest : String) (ip : IP) :
    Emits postgres (Effect.SetsFloor pool) (send (.lowerFloor pool digest ip)) := by
  apply Emits.call
  intro s r es hexec
  have h : exec (.lowerFloor pool digest ip) s = .ok (r, es) := hexec
  simp only [exec] at h
  split at h
  · cases h
    simp [Effect.SetsFloor]
  · cases h
    simp

theorem lowerSearchFloor_emits (old : Row) :
    Emits postgres (Effect.SetsFloor old.poolKey) (lowerSearchFloor old) := by
  apply (emits_read (q := .floorsToLower old) fun _ => rfl).bind
  intro digests
  exact emits_sendAll fun d _ => lowerFloor_emits old.poolKey d old.cidr.ip

theorem publishRelease_emits (old : Row) : Emits postgres (Effect.On old.poolKey) (publishRelease old) := by
  apply lockPool_emits
  intro o
  cases asPool o with
  | none => trivial
  | some pool =>
    have hparse : Emits postgres (Effect.On old.poolKey) (parsePoolCIDR pool) :=
      (Emits.ofOption _).bind fun _ => trivial
    apply hparse.bind
    intro parents
    apply (consumptionAfterRelease_emits old.poolKey parents old.cidr.net).bind
    intro consumed
    apply (emits_send (q := .writeConsumed old.poolKey consumed) rfl).bind
    exact fun _ => persistPoolCapacity_emits old.poolKey parents pool consumed

end Ipam.Allocator
