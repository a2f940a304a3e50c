import Ipam.Allocation.Measure
import Ipam.Allocation.ScanInvariant
import Ipam.Allocator.Prefix
import Ipam.Database.LockedStatements

namespace Ipam.Allocator

open Allocation Database Transaction

def PoolState.cidrs (x : PoolState) : List Cidr :=
  x.rows.map Row.cidr

def PoolState.total (x : PoolState) (p : Cidr) : ℕ :=
  x.consumed.getD (consumption p (PoolState.cidrs x))

def PoolState.record (x : PoolState) (p : Cidr) (r : Row) : PoolState :=
  { x.addRow r with consumed := some (PoolState.total x p + newly p (PoolState.cidrs x) r.cidr) }

def reservationRow (emptyDigest : String) (k : Key) (b : Cidr) : Row :=
  ⟨k, .reservation k b, none, b, emptyDigest, .reservation, .delete⟩

def Row.searchedUnder (r : Row) : String :=
  if r.purpose = .claim then r.scopeDigest else spaceAll

def Plain (p : Cidr) (ip : IP) : Prop :=
  ip.family = p.family ∧ ¬ Mapped p.family ip.addr

inductive PoolStep (emptyDigest : String) (k : Key) (p : Cidr) : PoolState → PoolState → Prop where
  | reserve {x : PoolState} {b : Cidr} (hb : b.CutFrom p) (hadm : Admitted x (reservationRow emptyDigest k b))
      (hapart : ∀ o ∈ x.rows, o.cidr.overlaps b = false) :
      PoolStep emptyDigest k p x (PoolState.record x p (reservationRow emptyDigest k b))
  | allocate {x : PoolState} {r : Row} (hr : r.poolKey = k) (hp : r.purpose ≠ .reservation)
      (hb : r.cidr.CutFrom p) (hadm : Admitted x r)
      (hfree : ¬ p.MeetsMapped → ∀ o ∈ x.rows, o.blocks (Row.searchedUnder r) = true →
        o.cidr.overlaps r.cidr = false) :
      PoolStep emptyDigest k p x (PoolState.record x p r)
  | publish {x : PoolState} {pool : IPPool} (hpool : x.pool = some pool) (v : ℕ) :
      PoolStep emptyDigest k p x { x with pool := some (setPoolCapacityStatus pool [p.net] v) }
  | seedFloor {x : PoolState} {d : String} (hd : d ≠ spaceAll) (h : floorAt x.floors d = none) :
      PoolStep emptyDigest k p x { x with floors := x.floors ++ [(d, p.ip)] }
  | raiseFloor {x : PoolState} {d : String} {floor next : IP} (hd : d ≠ spaceAll)
      (h : floorAt x.floors d = some floor) (hplain : ¬ p.MeetsMapped → Plain p next)
      (hnext : ¬ p.MeetsMapped → FloorBelow p (blocksIn d x.rows) (some floor) →
        FloorBelow p (blocksIn d x.rows) (some next)) :
      PoolStep emptyDigest k p x { x with floors := setFloorAt x.floors d next }

abbrev PoolSteps (emptyDigest : String) (k : Key) (p : Cidr) : PoolState → PoolState → Prop :=
  Relation.ReflTransGen (PoolStep emptyDigest k p)

theorem PoolSteps.preserves {emptyDigest : String} {k : Key} {p : Cidr} {K : PoolState → Prop}
    (hstep : ∀ x y, K x → PoolStep emptyDigest k p x y → K y) {x y : PoolState}
    (h : PoolSteps emptyDigest k p x y) (hx : K x) : K y := by
  induction h with
  | refl => exact hx
  | tail _ hlast ih => exact hstep _ _ ih hlast

structure Based (k : Key) (p : Cidr) (x : PoolState) : Prop where
  pool : ∃ pool, x.pool = some pool ∧ pool.allocatedCIDR = some p
  rows : ∀ r ∈ x.rows, r.poolKey = k ∧ r.cidr.CutFrom p

theorem Based.pool_ne_none {k : Key} {p : Cidr} {x : PoolState} (h : Based k p x) : x.pool ≠ none := by
  obtain ⟨pool, hpool, -⟩ := h.pool
  simp [hpool]

theorem Based.record {k : Key} {p : Cidr} {x : PoolState} {r : Row} (h : Based k p x) (hr : r.poolKey = k)
    (hb : r.cidr.CutFrom p) : Based k p (PoolState.record x p r) := by
  refine ⟨h.pool, ?_⟩
  intro o ho
  rcases List.mem_append.mp ho with ho | ho
  · exact h.rows o ho
  · rw [List.mem_singleton.mp ho]
    exact ⟨hr, hb⟩

theorem Based.step {emptyDigest : String} {k : Key} {p : Cidr} {x y : PoolState} (h : Based k p x)
    (hstep : PoolStep emptyDigest k p x y) : Based k p y := by
  cases hstep with
  | reserve hb _ _ => exact h.record rfl hb
  | allocate hr _ hb _ _ => exact h.record hr hb
  | publish hpool v =>
    obtain ⟨pool, hp, hc⟩ := h.pool
    obtain rfl := Option.some.inj (hpool.symm.trans hp)
    exact ⟨⟨_, rfl, hc⟩, h.rows⟩
  | seedFloor _ _ => exact ⟨h.pool, h.rows⟩
  | raiseFloor _ _ _ _ => exact ⟨h.pool, h.rows⟩

theorem Based.settled {k : Key} {p : Cidr} {x : PoolState} (h : Based k p x) :
    ∀ c ∈ PoolState.cidrs x, Settled p c := by
  intro c hc
  obtain ⟨r, hr, rfl⟩ := List.mem_map.mp hc
  exact (h.rows r hr).2.settled

def Published (p : Cidr) (x : PoolState) : Prop :=
  ∀ v, x.consumed = some v → ∃ pool, x.pool = some pool ∧ pool.capacity = some ⟨p.size, v, p.size - v⟩

theorem setPoolCapacityStatus_twice (pool : IPPool) (parents : List IPNet) (v w : ℕ) :
    setPoolCapacityStatus (setPoolCapacityStatus pool parents v) parents w =
      setPoolCapacityStatus pool parents w := rfl

theorem totalAddresses_net (p : Cidr) : totalAddresses [p.net] = p.size := by
  simp only [totalAddresses, List.map_cons, List.map_nil, List.sum_cons, List.sum_nil, Nat.add_zero]
  rfl

theorem blocksIn_spaceAll (rows : List Row) : blocksIn spaceAll rows = rows.map Row.cidr := by
  have hall : rows.filter (Row.blocks spaceAll) = rows :=
    List.filter_eq_self.mpr fun r _ => by simp [Row.blocks, spaceAll]
  rw [blocksIn, hall]

end Ipam.Allocator
