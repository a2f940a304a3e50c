import Ipam.Lib.Locked
import Ipam.Database.Exec

namespace Ipam.Database

open Allocation Transaction

def Object.asPool : Object → Option IPPool
  | .pool p => some p
  | _ => none

namespace PoolState

def apply (k : Key) : Effect → PoolState → PoolState
  | .putObject k' o, x => if k' = k then { x with pool := o.asPool } else x
  | .removeObject k', x => if k' = k then { x with pool := none, floors := [], consumed := none } else x
  | .insertRow r, x => if r.poolKey = k then { x with rows := x.rows ++ [r.unclaimed] } else x
  | .deleteRow pool k', x =>
    if pool = k then { x with rows := x.rows.filter fun r => r.allocationKey ≠ k' } else x
  | .setClaimKey _ _, x => x
  | .insertFloor pool digest floor, x =>
    if pool = k then { x with floors := x.floors ++ [(digest, floor)] } else x
  | .setFloor pool digest floor, x =>
    if pool = k then
      { x with floors := x.floors.map fun f => if f.1 = digest then (f.1, floor) else f }
    else x
  | .putConsumed pool n, x => if pool = k then { x with consumed := some n } else x
  | .insertIdentity _, x => x

end PoolState

theorem poolRows_deleteRow (s : Db) (k pool k' : Key) :
    (Effect.apply (.deleteRow pool k') s).poolRows k =
      if pool = k then (s.poolRows k).filter fun r => r.allocationKey ≠ k' else s.poolRows k := by
  simp only [Effect.apply, Db.poolRows, List.filter_filter]
  by_cases h : pool = k
  · subst h
    rw [if_pos rfl, List.filter_map, List.filter_filter]
    congr 1
    apply List.filter_congr
    intro r _
    by_cases hr : r.poolKey = pool
    · simp [hr, Row.unclaimed]
    · simp [hr]
  · rw [if_neg h]
    congr 1
    apply List.filter_congr
    intro r _
    by_cases hr : r.poolKey = k
    · simp [hr, Ne.symm h]
    · simp [hr]

theorem poolRows_setClaimKey (s : Db) (k k' : Key) (claim : Option Key) :
    (Effect.apply (.setClaimKey k' claim) s).poolRows k = s.poolRows k := by
  simp only [Effect.apply, Db.poolRows]
  induction s.rows with
  | nil => rfl
  | cons r rows ih =>
    simp only [List.map_cons, List.filter_cons]
    have hpool : (if r.allocationKey = k' then { r with claimKey := claim } else r).poolKey = r.poolKey := by
      split <;> rfl
    have hun : (if r.allocationKey = k' then { r with claimKey := claim } else r).unclaimed = r.unclaimed := by
      split <;> rfl
    rw [hpool]
    split
    · simp only [List.map_cons, hun, ih]
    · exact ih

theorem pool_put (s : Db) (k k' : Key) (o : Object) :
    (Effect.apply (.putObject k' o) s).pool k = if k' = k then o.asPool else s.pool k := by
  simp only [Effect.apply, Db.pool, Db.object, lookup_put]
  by_cases h : k = k'
  · rw [if_pos h, if_pos h.symm]
    cases o <;> rfl
  · rw [if_neg h, if_neg (Ne.symm h)]

theorem lookup_remove {β : Type} (k k' : Key) (t : List (Key × β)) :
    (t.filter fun e => e.1 ≠ k').lookup k = if k' = k then none else t.lookup k := by
  by_cases h : k' = k
  · subst h
    rw [if_pos rfl]
    exact lookup_filter_self (p := fun a => decide (a ≠ k')) (by simp) t
  · rw [if_neg h]
    exact lookup_filter (p := fun a => decide (a ≠ k')) (by simpa using Ne.symm h) t

theorem poolFloors_setFloor (s : Db) (k pool : Key) (digest : String) (floor : IP) :
    (Effect.apply (.setFloor pool digest floor) s).poolFloors k =
      if pool = k then (s.poolFloors k).map fun f => if f.1 = digest then (f.1, floor) else f
      else s.poolFloors k := by
  simp only [Effect.apply, Db.poolFloors]
  induction s.floors with
  | nil => simp
  | cons f floors ih =>
    simp only [List.map_cons, List.filter_cons]
    have hpool : (if f.poolKey = pool ∧ f.scopeDigest = digest then { f with floor := floor } else f).poolKey =
        f.poolKey := by
      split <;> rfl
    rw [hpool]
    by_cases hk : f.poolKey = k
    · simp only [hk, decide_true, if_true, List.map_cons, ih]
      by_cases hp : pool = k
      · subst hp
        by_cases hd : f.scopeDigest = digest
        · simp [hd]
        · simp [hd]
      · simp [hp, Ne.symm hp]
    · simp only [hk, decide_false, Bool.false_eq_true, if_false]
      exact ih

theorem poolState_apply (k : Key) (e : Effect) (s : Db) :
    (e.apply s).poolState k = (s.poolState k).apply k e := by
  cases e with
  | putObject k' o =>
    have hpool := pool_put s k k' o
    simp only [Db.poolState, PoolState.apply, hpool]
    split <;> rfl
  | removeObject k' =>
    simp only [Db.poolState, PoolState.apply, Effect.apply, Db.pool, Db.object, Db.consumed, Db.poolRows,
      Db.poolFloors, lookup_remove, List.filter_filter]
    by_cases h : k' = k
    · subst h
      simp
    · simp only [if_neg h]
      congr 2
      apply List.filter_congr
      intro f _
      by_cases hf : f.poolKey = k
      · simp [hf, Ne.symm h]
      · simp [hf]
  | insertRow r =>
    simp only [Db.poolState, PoolState.apply, Effect.apply, Db.poolRows, List.filter_append, List.map_append]
    by_cases h : r.poolKey = k
    · simp [h, Db.pool, Db.object, Db.poolFloors, Db.consumed]
    · simp [h, Db.pool, Db.object, Db.poolFloors, Db.consumed]
  | deleteRow pool k' =>
    have hrows := poolRows_deleteRow s k pool k'
    simp only [Db.poolState, PoolState.apply, hrows]
    split <;> rfl
  | setClaimKey k' claim =>
    have hrows := poolRows_setClaimKey s k k' claim
    simp only [Db.poolState, PoolState.apply, hrows]
    rfl
  | insertFloor pool digest floor =>
    simp only [Db.poolState, PoolState.apply, Effect.apply, Db.poolFloors, List.filter_append, List.map_append]
    by_cases h : pool = k
    · simp [h, Db.pool, Db.object, Db.poolRows, Db.consumed]
    · simp [h, Db.pool, Db.object, Db.poolRows, Db.consumed]
  | setFloor pool digest floor =>
    have hfloors := poolFloors_setFloor s k pool digest floor
    simp only [Db.poolState, PoolState.apply, hfloors]
    split <;> rfl
  | putConsumed pool n =>
    simp only [Db.poolState, PoolState.apply, Effect.apply, Db.consumed, lookup_put]
    by_cases h : pool = k
    · simp [h, Db.pool, Db.object, Db.poolRows, Db.poolFloors]
    · simp [h, Ne.symm h, Db.pool, Db.object, Db.poolRows, Db.poolFloors]
  | insertIdentity i => rfl

theorem apply_setFloor (k : Key) (d : String) (f : IP) (x : PoolState) :
    x.apply k (.setFloor k d f) = { x with floors := x.floors.map fun g => if g.1 = d then (g.1, f) else g } :=
  if_pos rfl

theorem poolState_view (k : Key) (es : List Effect) (s : Db) :
    (postgres.view es s).poolState k = es.foldl (fun x e => x.apply k e) (s.poolState k) := by
  induction es generalizing s with
  | nil => rfl
  | cons e es ih =>
    have hstep : (postgres.apply e s).poolState k = (s.poolState k).apply k e := poolState_apply k e s
    simp only [Transaction.Database.view, List.foldl_cons, ← hstep]
    exact ih _

theorem mem_blocksIn {s : Db} {k : Key} {d : String} (hd : d ≠ "") {c : Cidr} :
    c ∈ blocksIn d (s.poolState k).rows ↔
      ∃ r ∈ s.rows, r.poolKey = k ∧ (r.purpose ≠ .claim ∨ r.scopeDigest = d) ∧ r.cidr = c := by
  simp only [blocksIn, List.mem_map, List.mem_filter, Db.poolState, Db.poolRows, Row.blocks, Bool.or_eq_true,
    decide_eq_true_eq, hd, false_or]
  constructor
  · rintro ⟨_, ⟨⟨r, ⟨hr, hk⟩, rfl⟩, hblocks⟩, rfl⟩
    exact ⟨r, hr, hk, hblocks, rfl⟩
  · rintro ⟨r, hr, hk, hblocks, rfl⟩
    exact ⟨r.unclaimed, ⟨⟨r, ⟨hr, hk⟩, rfl⟩, hblocks⟩, rfl⟩

theorem poolState_respects (k : Key) (e : Effect) (s s' : Db) (h : s.poolState k = s'.poolState k) :
    (postgres.apply e s).poolState k = (postgres.apply e s').poolState k := by
  have hs : (postgres.apply e s).poolState k = (s.poolState k).apply k e := poolState_apply k e s
  have hs' : (postgres.apply e s').poolState k = (s'.poolState k).apply k e := poolState_apply k e s'
  rw [hs, hs', h]

abbrev PoolFrozen (Others : List Lock → Db → Db → Prop) (guard : Lock) (k : Key) : Prop :=
  Frozen postgres Others guard (Db.poolState k)

theorem frozen_alone (guard : Lock) (k : Key) : PoolFrozen Alone guard k :=
  Frozen.alone (poolState_respects k)

end Ipam.Database
