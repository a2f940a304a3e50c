import Ipam.Registry.Served

namespace Ipam.Registry

open Allocation Allocator Cascade Database Transaction

structure Edits (pool pool' : IPPool) : Prop where
  valid : validateIPPool pool' = true
  cidr : pool'.cidr = pool.cidr
  ipFamily : pool'.ipFamily = pool.ipFamily
  parentPoolRef : pool'.parentPoolRef = pool.parentPoolRef
  prefixLength : pool'.prefixLength = pool.prefixLength
  allocatedCIDR : pool'.allocatedCIDR = pool.allocatedCIDR

structure Redefines (c c' : IPClass) : Prop where
  source : c'.source = c.source
  ipFamily : c'.ipFamily = c.ipFamily
  parentClassName : c'.parentClassName = c.parentClassName
  uniqueWithin : c'.uniqueWithin = c.uniqueWithin
  poolPer : c'.poolPer = c.poolPer

structure Shrinks (L L' : Ledger) : Prop where
  pools : ∀ k pool', L'.objects k = some (.pool pool') →
    ∃ pool, L.objects k = some (.pool pool) ∧ (pool' = pool ∨ Edits pool pool')
  classes : ∀ k c', L'.objects k = some (.class_ c') →
    ∃ c, L.objects k = some (.class_ c) ∧ (c' = c ∨ Redefines c c')
  rows : ∀ r ∈ L'.rows, ∃ o ∈ L.rows, o.unclaimed = r.unclaimed
  identities : ∀ i ∈ L'.identities, i ∈ L.identities

def Object.bound : Object → Bool
  | .claim _ => true
  | .allocation _ => true
  | _ => false

namespace Shrinks

variable {L L' L'' : Ledger} {k : Key}

theorem of_objects (h : L'.objects = L.objects) (hrows : ∀ r ∈ L'.rows, ∃ o ∈ L.rows, o.unclaimed = r.unclaimed)
    (hids : L'.identities = L.identities) : Shrinks L L' := by
  refine ⟨?_, ?_, hrows, by simp [hids]⟩
  · intro k pool hpool
    exact ⟨pool, by rw [← h, hpool], .inl rfl⟩
  · intro k c hc
    exact ⟨c, by rw [← h, hc], .inl rfl⟩

theorem refl (L : Ledger) : Shrinks L L :=
  .of_objects rfl (fun r hr => ⟨r, hr, rfl⟩) rfl

theorem put_bound (h : Shrinks L L') {o : Object} (ho : Object.bound o = true) : Shrinks L (L'.put k o) := by
  have hobject : ∀ {k' : Key} {o' : Object}, Object.bound o' = false → (L'.put k o).objects k' = some o' →
      L'.objects k' = some o' := by
    intro k' o' hnot hput
    obtain ⟨-, rfl⟩ | ⟨-, hold⟩ := Ledger.put_objects.mp hput
    · rw [ho] at hnot
      cases hnot
    · exact hold
  exact ⟨fun k' pool hpool => h.pools k' pool (hobject rfl hpool), fun k' c hc => h.classes k' c (hobject rfl hc),
    h.rows, h.identities⟩

theorem remove (h : Shrinks L L') : Shrinks L (L'.remove k) := by
  refine ⟨?_, ?_, h.rows, fun i hi => h.identities i (List.mem_filter.mp hi).1⟩
  · exact fun k' pool hpool => h.pools k' pool (Ledger.remove_objects.mp hpool).2
  · exact fun k' c hc => h.classes k' c (Ledger.remove_objects.mp hc).2

theorem drop (h : Shrinks L L') (gone : Row → Bool) : Shrinks L (L'.drop gone) :=
  ⟨h.pools, h.classes, fun r hr => h.rows r (List.mem_filter.mp hr).1, h.identities⟩

theorem setClaim (h : Shrinks L L') (claim : Option Key) : Shrinks L (L'.setClaim k claim) := by
  refine ⟨h.pools, h.classes, ?_, h.identities⟩
  intro r hr
  obtain ⟨o, ho, rfl⟩ := List.mem_map.mp hr
  obtain ⟨o', ho', heq⟩ := h.rows o ho
  refine ⟨o', ho', heq.trans ?_⟩
  split
  · rfl
  · rfl

theorem retain (h : Shrinks L L') : Shrinks L (Ledger.retain L' k) := by
  refine ⟨h.pools, h.classes, ?_, h.identities⟩
  intro r hr
  obtain ⟨o, ho, rfl⟩ := List.mem_map.mp hr
  obtain ⟨o', ho', heq⟩ := h.rows o ho
  refine ⟨o', ho', heq.trans ?_⟩
  split
  · rfl
  · rfl

theorem released (h : Shrinks L L') : Shrinks L (released L' k) :=
  h.retain.drop _

theorem clear (h : Shrinks L L') (tree roots : List Key) : Shrinks L (Ledger.clear L' tree roots) := by
  have hobject : ∀ {k' : Key} {o : Object}, (Ledger.clear L' tree roots).objects k' = some o →
      L'.objects k' = some o := by
    intro k' o ho
    simp only [Ledger.clear] at ho
    split at ho
    · cases ho
    · exact ho
  refine ⟨fun k' pool hpool => h.pools k' pool (hobject hpool), fun k' c hc => h.classes k' c (hobject hc), ?_, ?_⟩
  · exact fun r hr => h.rows r (List.mem_filter.mp hr).1
  · exact fun i hi => h.identities i (List.mem_filter.mp hi).1

theorem disposed (h : Shrinks L L') {retained : List Key} {allocation : Option Key}
    (hd : Disposed L' retained allocation L'') : Shrinks L L'' := by
  cases hd with
  | unbound => exact h
  | missing _ _ => exact h
  | kept _ _ => exact h.put_bound rfl
  | removed _ _ => exact h.remove

theorem put_pool {pool pool' : IPPool} (hk : L.objects k = some (.pool pool)) (hedit : Edits pool pool') :
    Shrinks L (L.put k (.pool pool')) := by
  refine ⟨?_, ?_, (refl L).rows, fun _ hi => hi⟩
  · intro k' p hp
    obtain ⟨rfl, hnew⟩ | ⟨-, hold⟩ := Ledger.put_objects.mp hp
    · obtain rfl := Object.pool.inj hnew
      exact ⟨pool, hk, .inr hedit⟩
    · exact ⟨p, hold, .inl rfl⟩
  · intro k' c hc
    obtain ⟨-, hnew⟩ | ⟨-, hold⟩ := Ledger.put_objects.mp hc
    · cases hnew
    · exact ⟨c, hold, .inl rfl⟩

theorem put_class {c c' : IPClass} (hk : L.objects k = some (.class_ c)) (h : Redefines c c') :
    Shrinks L (L.put k (.class_ c')) := by
  refine ⟨?_, ?_, (refl L).rows, fun _ hi => hi⟩
  · intro k' p hp
    obtain ⟨-, hnew⟩ | ⟨-, hold⟩ := Ledger.put_objects.mp hp
    · cases hnew
    · exact ⟨p, hold, .inl rfl⟩
  · intro k' d hd
    obtain ⟨rfl, hnew⟩ | ⟨-, hold⟩ := Ledger.put_objects.mp hd
    · obtain rfl := Object.class_.inj hnew
      exact ⟨c, hk, .inr h⟩
    · exact ⟨d, hold, .inl rfl⟩

end Shrinks

theorem redefines_of_validateUpdate {name : String} {old new : IPClass}
    (h : ipClassStrategy.validateUpdate name new old = true) : Redefines old new := by
  simp only [ipClassStrategy, Bool.and_eq_true, decide_eq_true_eq] at h
  obtain ⟨⟨⟨⟨⟨⟨-, hsource⟩, hfamily⟩, -⟩, hparent⟩, hunique⟩, hper⟩ := h
  exact ⟨hsource, hfamily, hparent, hunique, hper⟩

theorem edits_of_validateUpdate {name : String} {old new : IPPool}
    (h : ipPoolStrategy.validateUpdate name (ipPoolStrategy.prepareForUpdate new old) old = true) :
    Edits old (ipPoolStrategy.prepareForUpdate new old).core := by
  simp only [ipPoolStrategy, Bool.and_eq_true, decide_eq_true_eq] at h
  obtain ⟨⟨⟨⟨hvalid, hcidr⟩, hfamily⟩, hparent⟩, hlength⟩ := h
  exact ⟨hvalid, hcidr, hfamily, hparent, hlength, rfl⟩

inductive Growth (hash : Scope.Text → String) (L : Ledger) (a : Action) (L' : Ledger) : Prop where
  | nothing (h : Shrinks L L')
  | class_ {req : ClassRequest} (action : a = .createClass req ∨ a = .updateClass req true)
      (valid : validateIPClass req.name req.class_ = true) (absent : L.objects req.key = none)
      (ledger : L' = L.put req.key (.class_ req.class_))
  | pool {req : PoolRequest}
      (action : a = .createPool req ∧ req.pool.parentPoolRef = none ∧ RootApart L req ∨ a = .updatePool req true)
      (valid : validateIPPool (preparePoolForCreate req.pool) = true) (absent : L.objects req.key = none)
      (ledger : L' = L.put req.key (.pool (preparePoolForCreate req.pool).core))
  | child {req : PoolRequest} {parent : String} {mid carved : Ledger} {pool : IPPool} {block : IPNet} {b : Cidr}
      (action : a = .createPool req) (ref : req.pool.parentPoolRef = some parent)
      (valid : validateIPPool (preparePoolForCreate req.pool) = true)
      (taken : Taken (emptySpace hash) (poolStorageKey req.project parent) (emptySpace hash)
        (preparePoolForCreate req.pool).prefixLength ((req.prefixRequest parent).row (emptySpace hash)) L mid carved pool
        block b)
      (absent : carved.objects req.key = none)
      (ledger : L' = carved.put req.key (.pool { preparePoolForCreate req.pool with allocatedCIDR := some b }.core))
  | provision {req : ClaimRequest} {level : CascadeLevel} {source : Key} {n : ℤ} {mid carved : Ledger} {pool : IPPool}
      {block : IPNet} {b : Cidr} (action : a = .createClaim req)
      (plan : planLevel hash req.tenant req.claim.scope level.class_ = .ok level)
      (defined : Defined L level.class_) (draws : Draws hash L req.tenant req.claim.scope level.class_ source)
      (provisioned : Provisioned (emptySpace hash) level source n L mid carved L' pool block b)
  | block {req : ClaimRequest} {class_ : ResolvedClass} {poolKey : Key} {n : ℤ} {space : Scope × String}
      {mid carved : Ledger} {pool : IPPool} {block : IPNet} {b : Cidr} (action : a = .createClaim req)
      (defined : Defined L class_) (draws : Draws hash L req.tenant req.claim.scope class_ poolKey)
      (length : effectivePrefixLength class_.spec req.claim.prefixLength = .ok n)
      (space_eq : projectAddressSpaceDigest hash req.tenant req.claim.scope class_.spec.uniqueWithin "uniqueWithin" =
        .ok space)
      (taken : BlockTaken hash req class_ poolKey n space L mid carved pool block b)
      (rest : Shrinks carved L')

theorem Change.growth {hash : Scope.Text → String} {L L' : Ledger} {a : Action} (h : Change hash L a L') :
    Growth hash L a L' := by
  have hsame := Shrinks.refl L
  cases h with
  | createClass hvalid habsent => exact .class_ (.inl rfl) hvalid habsent rfl
  | forceClass hvalid habsent => exact .class_ (.inr rfl) hvalid habsent rfl
  | updateClass hstored hvalid => exact .nothing (.put_class hstored (redefines_of_validateUpdate hvalid))
  | removeClass _ => exact .nothing hsame.remove
  | createRoot hroot hapart hvalid habsent => exact .pool (.inl ⟨rfl, hroot, hapart⟩) hvalid habsent rfl
  | authorChild hchild hvalid htaken habsent => exact .child rfl hchild hvalid htaken habsent rfl
  | forcePool hvalid habsent => exact .pool (.inr rfl) hvalid habsent rfl
  | updatePool hstored hvalid => exact .nothing (.put_pool hstored (edits_of_validateUpdate hvalid))
  | dropReservations _ _ _ => exact .nothing (hsame.drop _)
  | removeRoot _ _ _ => exact .nothing hsame.remove
  | deleteChild _ _ _ => exact .nothing (hsame.drop _).released.remove
  | removePool _ _ _ => exact .nothing hsame.remove
  | provision hplan hdefined hdraws hprov => exact .provision rfl hplan hdefined hdraws hprov
  | bindBlock _ _ hdefined hdraws hlength hspace htaken _ _ =>
    exact .block rfl hdefined hdraws hlength hspace htaken (((Shrinks.refl _).put_bound rfl).put_bound rfl)
  | holdRange _ _ _ _ _ _ _ _ _ _ => exact .nothing ((hsame.setClaim _).put_bound rfl)
  | forceClaim _ => exact .nothing (hsame.put_bound rfl)
  | updateClaim _ _ => exact .nothing (hsame.put_bound rfl)
  | releasing _ _ => exact .nothing (hsame.put_bound rfl)
  | releaseClaim _ _ hdisposed _ => exact .nothing (hsame.released.disposed hdisposed).remove
  | releaseRange _ _ _ _ _ _ _ => exact .nothing (hsame.clear _ _).remove
  | removeRangeClaim _ _ _ _ => exact .nothing hsame.remove
  | forceAllocation _ => exact .nothing (hsame.put_bound rfl)
  | updateAllocation _ _ => exact .nothing (hsame.put_bound rfl)
  | freeAllocation _ _ _ => exact .nothing (hsame.drop _).remove

end Ipam.Registry
