import Ipam.Database.ObjectLocks
import Ipam.Lib.Requests

/-!
The part of the database that requests are about: the objects without the capacity that pools publish, the
allocation rows and the pool identities. Floors and totals are bookkeeping.
-/

namespace Ipam.Database

open Allocation Transaction

def IPPool.core (pool : IPPool) : IPPool :=
  { pool with statusFamily := none, capacity := none }

def Object.core : Object → Object
  | .pool p => .pool p.core
  | o => o

structure Ledger where
  objects : Key → Option Object
  rows : List Row
  identities : List Identity

namespace Ledger

def put (L : Ledger) (k : Key) (o : Object) : Ledger :=
  { L with objects := Function.update L.objects k (some o) }

def remove (L : Ledger) (k : Key) : Ledger :=
  { L with
    objects := Function.update L.objects k none
    identities := L.identities.filter fun i => i.poolKey ≠ k }

def add (L : Ledger) (r : Row) : Ledger :=
  { L with rows := L.rows ++ [r] }

def drop (L : Ledger) (gone : Row → Bool) : Ledger :=
  { L with rows := L.rows.filter fun r => ! gone r }

def setClaim (L : Ledger) (k : Key) (claim : Option Key) : Ledger :=
  { L with rows := L.rows.map fun r => if r.allocationKey = k then { r with claimKey := claim } else r }

def name (L : Ledger) (i : Identity) : Ledger :=
  { L with identities := L.identities ++ [i] }

def apply : Effect → Ledger → Ledger
  | .putObject k o, L => L.put k o.core
  | .removeObject k, L => L.remove k
  | .insertRow r, L => L.add r
  | .deleteRow pool k, L => L.drop fun r => r.poolKey = pool ∧ r.allocationKey = k
  | .setClaimKey k claim, L => L.setClaim k claim
  | .insertIdentity i, L => L.name i
  | .insertFloor _ _ _, L => L
  | .setFloor _ _ _, L => L
  | .putConsumed _ _, L => L

def pool (L : Ledger) (k : Key) : Option IPPool :=
  (L.objects k).bind fun
    | .pool p => some p
    | _ => none

def poolRows (L : Ledger) (k : Key) : List Row :=
  (L.rows.filter fun r => r.poolKey = k).map Row.unclaimed

structure Admits (L : Ledger) (r : Row) : Prop where
  claimKey : r.claimKey = none ∨ ∀ o ∈ L.rows, o.claimKey ≠ r.claimKey
  allocationKey : ∀ o ∈ L.rows, o.allocationKey ≠ r.allocationKey
  apart : ∀ o ∈ L.rows, o.poolKey = r.poolKey → o.scopeDigest = r.scopeDigest → o.cidr.overlaps r.cidr = false
  pool : L.objects r.poolKey ≠ none

end Ledger

def Db.ledger (s : Db) : Ledger :=
  ⟨fun k => (s.object k).map Object.core, s.rows, s.identities⟩

theorem ledger_apply (e : Effect) (s : Db) : (e.apply s).ledger = s.ledger.apply e := by
  cases e with
  | putObject k o =>
    simp only [Db.ledger, Ledger.apply, Ledger.put, Effect.apply, Ledger.mk.injEq, and_true]
    funext k'
    simp only [Db.object, lookup_put, Function.update_apply]
    split <;> rfl
  | removeObject k =>
    simp only [Db.ledger, Ledger.apply, Ledger.remove, Effect.apply, Ledger.mk.injEq, and_true]
    funext k'
    simp only [Db.object, lookup_remove, Function.update_apply, eq_comm]
    split <;> rfl
  | deleteRow pool k =>
    simp only [Db.ledger, Ledger.apply, Ledger.drop, Effect.apply, Ledger.mk.injEq, and_true]
    refine ⟨rfl, ?_⟩
    apply List.filter_congr
    intro r _
    simp
  | _ => rfl

theorem ledger_pool (s : Db) (k : Key) : s.ledger.pool k = (s.pool k).map IPPool.core := by
  simp only [Db.ledger, Ledger.pool, Db.pool]
  cases s.object k with
  | none => rfl
  | some o => cases o <;> rfl

theorem ledger_object_none {s : Db} {k : Key} : s.ledger.objects k = none ↔ s.object k = none :=
  Option.map_eq_none_iff

theorem insertRow_admits {s : Db} {r : Row} {es : List Effect} (h : insertRow s r = .ok es) : s.ledger.Admits r := by
  simp only [insertRow] at h
  split at h
  · cases h
  rename_i hclaim
  split at h
  · cases h
  rename_i hkey
  split at h
  · cases h
  rename_i hover
  split at h
  · cases h
  rename_i hpool
  refine ⟨?_, ?_, ?_, ?_⟩
  · cases hr : r.claimKey with
    | none => exact Or.inl rfl
    | some k =>
      right
      intro o ho heq
      apply hclaim
      refine ⟨by rw [hr]; rfl, List.any_eq_true.mpr ⟨o, ho, ?_⟩⟩
      simpa [hr] using heq
  · intro o ho heq
    exact hkey (List.any_eq_true.mpr ⟨o, ho, by simpa using heq⟩)
  · intro o ho hk hd
    by_contra hcidr
    apply hover
    refine List.any_eq_true.mpr ⟨o.unclaimed, ?_, ?_⟩
    · exact List.mem_map_of_mem (List.mem_filter.mpr ⟨ho, by simpa using hk⟩)
    · simpa [Row.unclaimed, hd] using hcidr
  · intro hnone
    apply hpool
    rw [ledger_object_none.mp hnone]
    rfl

theorem Ledger.mem_poolRows {L : Ledger} {k : Key} {r : Row} (h : r ∈ L.rows) (hk : r.poolKey = k) :
    r.unclaimed ∈ L.poolRows k :=
  List.mem_map_of_mem (List.mem_filter.mpr ⟨h, by simpa using hk⟩)

theorem Ledger.put_self {L : Ledger} {k : Key} {o : Object} (h : L.objects k = some o) : L.put k o = L := by
  simp only [Ledger.put, ← h, Function.update_eq_self]

theorem Ledger.put_objects {L : Ledger} {k k' : Key} {o o' : Object} :
    (L.put k o).objects k' = some o' ↔ k' = k ∧ o' = o ∨ k' ≠ k ∧ L.objects k' = some o' := by
  simp only [Ledger.put]
  by_cases h : k' = k
  · subst h
    simp [eq_comm]
  · simp [h]

theorem Ledger.remove_objects {L : Ledger} {k k' : Key} {o : Object} :
    (L.remove k).objects k' = some o ↔ k' ≠ k ∧ L.objects k' = some o := by
  simp only [Ledger.remove]
  by_cases h : k' = k
  · subst h
    simp
  · simp [h]

section

variable {s : Db}

theorem insertAllocation_after (r : Row) : postgres.After s (Prog.call (.insertAllocation r)) fun _ s' =>
    s.ledger.Admits r ∧ s'.ledger = s.ledger.add r := by
  apply Database.After.call
  intro a es hexec
  have h : (insertRow s r).map (fun es => ((), es)) = .ok (a, es) := hexec
  cases hins : insertRow s r with
  | error e =>
    rw [hins] at h
    cases h
  | ok es' =>
    rw [hins] at h
    cases h
    rw [insertRow_ok hins]
    exact ⟨insertRow_admits hins, ledger_apply (.insertRow r) s⟩

theorem insertReservation_after (r : Row) :
    postgres.After s (Prog.call (Stmt.insertReservation r)) fun (inserted : Bool) s' =>
      if inserted then
        s.ledger.Admits r ∧ (∀ o ∈ s.rows, o.poolKey = r.poolKey → o.cidr.overlaps r.cidr = false) ∧
          s'.ledger = s.ledger.add r
      else (∃ o ∈ s.rows, o.poolKey = r.poolKey ∧ o.cidr.overlaps r.cidr = true) ∧ s' = s := by
  apply Database.After.call
  intro a es hexec
  have h : exec (.insertReservation r) s = .ok (a, es) := hexec
  simp only [exec] at h
  split at h
  · rename_i hover
    cases h
    obtain ⟨o, ho, hcidr⟩ := List.any_eq_true.mp hover
    obtain ⟨o', ho', rfl⟩ := List.mem_map.mp ho
    obtain ⟨hmem, hkey⟩ := List.mem_filter.mp ho'
    exact ⟨⟨o', hmem, by simpa using hkey, hcidr⟩, rfl⟩
  · rename_i hfree
    cases hins : insertRow s r with
    | error e =>
      rw [hins] at h
      cases h
    | ok es' =>
      rw [hins] at h
      cases h
      rw [insertRow_ok hins]
      refine ⟨insertRow_admits hins, ?_, ledger_apply (.insertRow r) s⟩
      intro o ho hkey
      by_contra hcidr
      apply hfree
      exact List.any_eq_true.mpr ⟨_, s.ledger.mem_poolRows ho hkey, by simpa [Row.unclaimed] using hcidr⟩

theorem insertObject_after (k : Key) (o : Object) : postgres.After s (Prog.call (.insertObject k o)) fun _ s' =>
    s.ledger.objects k = none ∧ s'.ledger = s.ledger.put k o.core := by
  apply Database.After.call
  intro a es hexec
  obtain ⟨habsent, rfl⟩ := insertObject_ok hexec
  exact ⟨ledger_object_none.mpr habsent, ledger_apply (.putObject k o) s⟩

theorem updateObject_after (k : Key) (o : Object) : postgres.After s (Prog.call (.updateObject k o)) fun _ s' =>
    s.ledger.objects k ≠ none ∧ s'.ledger = s.ledger.put k o.core := by
  apply Database.After.call
  intro a es hexec
  obtain ⟨hstored, rfl⟩ := updateObject_ok hexec
  exact ⟨mt ledger_object_none.mp hstored, ledger_apply (.putObject k o) s⟩

theorem deleteObject_after (k : Key) : postgres.After s (Prog.call (.deleteObject k)) fun _ s' =>
    (∀ r ∈ s.rows, r.poolKey ≠ k) ∧ s'.ledger = s.ledger.remove k := by
  apply Database.After.call
  intro a es hexec
  obtain ⟨hfree, rfl⟩ := deleteObject_ok hexec
  exact ⟨hfree, ledger_apply (.removeObject k) s⟩

end

def Db.Tabled (s : Db) : Prop :=
  (s.objects.map Prod.fst).Nodup

theorem tabled_apply {s : Db} (h : s.Tabled) (e : Effect) : (e.apply s).Tabled := by
  have hfilter : ∀ k, ((s.objects.filter fun o => o.1 ≠ k).map Prod.fst).Nodup :=
    fun k => h.sublist (List.filter_sublist.map _)
  cases e with
  | putObject k o =>
    refine List.nodup_cons.mpr ⟨?_, hfilter k⟩
    simp
  | removeObject k => exact hfilter k
  | _ => exact h

theorem tabled_view {s : Db} (h : s.Tabled) (log : List Effect) : (postgres.view log s).Tabled := by
  induction log generalizing s with
  | nil => exact h
  | cons e log ih => exact ih (tabled_apply h e)

end Ipam.Database
