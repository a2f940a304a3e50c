import Ipam.Database.PoolState

/-!
Which rows a lock protects. A transaction that has deleted rows of a pool and one that has inserted a floor for
it do not wait for one another; `Lock.conflictsWith true` is a stricter system in which they do.
-/

namespace Ipam.Database

open Allocation Transaction

def Lock.crosses : Lock → Lock → Bool
  | .deleted k, .seeded k' => k = k'
  | .seeded k, .deleted k' => k = k'
  | _, _ => false

def Lock.conflictsWith (strict : Bool) (l m : Lock) : Bool :=
  l.conflicts m || (strict && l.crosses m)

theorem Lock.conflicts_comm (l m : Lock) : l.conflicts m = m.conflicts l := by
  cases l <;> cases m <;> simp [Lock.conflicts, eq_comm]

theorem Lock.crosses_comm (l m : Lock) : l.crosses m = m.crosses l := by
  cases l <;> cases m <;> simp [Lock.crosses, eq_comm]

theorem Lock.conflictsWith_comm (strict : Bool) (l m : Lock) :
    l.conflictsWith strict m = m.conflictsWith strict l := by
  simp only [Lock.conflictsWith, Lock.conflicts_comm l m, Lock.crosses_comm l m]

theorem Lock.conflictsWith_false : Lock.conflictsWith false = Lock.conflicts := by
  funext l m
  simp [Lock.conflictsWith]

def Effect.footprint : Effect → List Lock
  | .putObject k _ => [.object k]
  | .removeObject k => [.object k]
  | .insertRow r => [.row r.allocationKey]
  | .deleteRow _ k => [.row k]
  | .setClaimKey k _ => [.row k]
  | .insertFloor pool digest _ => [.floor pool digest, .seeded pool]
  | .setFloor pool digest _ => [.floor pool digest]
  | .putConsumed pool _ => [.consumption pool]
  | .insertIdentity i => [.identity i.className i.scopeDigest]

def Db.rowsOf (s : Db) (key : Key) : List Row :=
  s.rows.filter fun r => r.allocationKey = key

def Db.floorOf (s : Db) (pool : Key) (digest : String) : Option IP :=
  floorAt (s.poolFloors pool) digest

def Lock.keeps (strict : Bool) : Lock → Db → Db → Prop
  | .row key, s, s' => s'.rowsOf key = s.rowsOf key
  | .floor pool digest, s, s' => s'.floorOf pool digest = s.floorOf pool digest ∨ s'.floorOf pool digest = none
  | .deleted pool, s, s' => strict = true → ∀ digest, s.floorOf pool digest = none → s'.floorOf pool digest = none
  | _, _, _ => True

theorem Lock.keeps_refl (strict : Bool) (l : Lock) (s : Db) : l.keeps strict s s := by
  cases l with
  | row key => exact rfl
  | floor pool digest => exact Or.inl rfl
  | deleted pool => exact fun _ _ h => h
  | _ => trivial

theorem Lock.keeps_trans (strict : Bool) (l : Lock) (s s' s'' : Db) (h : l.keeps strict s s')
    (h' : l.keeps strict s' s'') : l.keeps strict s s'' := by
  cases l with
  | row key => exact h'.trans h
  | floor pool digest =>
    rcases h' with h' | h'
    · rcases h with h | h
      · exact Or.inl (h'.trans h)
      · exact Or.inr (h'.trans h)
    · exact Or.inr h'
  | deleted pool => exact fun hs digest hn => h' hs digest (h hs digest hn)
  | _ => trivial

theorem rowsOf_apply {e : Effect} {key : Key} (h : ∀ m ∈ e.footprint, m ≠ .row key) (s : Db) :
    (e.apply s).rowsOf key = s.rowsOf key := by
  cases e with
  | insertRow r =>
    have hne : r.allocationKey ≠ key := fun heq => h _ List.mem_cons_self (by rw [heq])
    simp [Db.rowsOf, Effect.apply, hne]
  | deleteRow pool k =>
    have hne : k ≠ key := fun heq => h _ List.mem_cons_self (by rw [heq])
    simp only [Db.rowsOf, Effect.apply, List.filter_filter]
    apply List.filter_congr
    intro r _
    by_cases hr : r.allocationKey = key
    · simp [hr, Ne.symm hne]
    · simp [hr]
  | setClaimKey k claim =>
    have hne : k ≠ key := fun heq => h _ List.mem_cons_self (by rw [heq])
    simp only [Db.rowsOf, Effect.apply]
    induction s.rows with
    | nil => rfl
    | cons r rows ih =>
      rw [List.map_cons, List.filter_cons, List.filter_cons, ih]
      by_cases hr : r.allocationKey = k
      · simp [hr, hne]
      · simp [hr]
  | _ => rfl

theorem floorOf_eq (s : Db) (pool : Key) (digest : String) :
    s.floorOf pool digest = floorAt (s.poolState pool).floors digest := rfl

theorem floorAt_setFloor_ne {floors : List (String × IP)} {d digest : String} (hne : d ≠ digest) (floor : IP) :
    floorAt (floors.map fun f => if f.1 = d then (f.1, floor) else f) digest = floorAt floors digest := by
  simp only [floorAt]
  induction floors with
  | nil => rfl
  | cons f floors ih =>
    rw [List.map_cons]
    by_cases hf : f.1 = d
    · have hneq : digest ≠ f.1 := fun heq => hne (hf.symm.trans heq.symm)
      rw [if_pos hf, List.lookup_cons, List.lookup_cons, beq_false_of_ne hneq]
      exact ih
    · rw [if_neg hf, List.lookup_cons, List.lookup_cons, ih]

theorem floorAt_setFloor {floors : List (String × IP)} {d : String} (floor : IP) :
    floorAt (floors.map fun f => if f.1 = d then (f.1, floor) else f) d =
      (floorAt floors d).map fun _ => floor := by
  simp only [floorAt]
  induction floors with
  | nil => rfl
  | cons f floors ih =>
    rw [List.map_cons]
    by_cases hf : f.1 = d
    · rw [if_pos hf, List.lookup_cons, List.lookup_cons, hf, BEq.rfl]
      rfl
    · rw [if_neg hf, List.lookup_cons, List.lookup_cons, beq_false_of_ne (Ne.symm hf), ih]

theorem floorOf_apply {e : Effect} {pool : Key} {digest : String} (h : ∀ m ∈ e.footprint, m ≠ .floor pool digest)
    (s : Db) :
    (e.apply s).floorOf pool digest = s.floorOf pool digest ∨ (e.apply s).floorOf pool digest = none := by
  simp only [floorOf_eq, poolState_apply]
  cases e with
  | removeObject k =>
    by_cases hk : k = pool
    · exact Or.inr (by simp [PoolState.apply, hk, floorAt])
    · exact Or.inl (by simp [PoolState.apply, hk])
  | insertFloor pool' d floor =>
    left
    by_cases hp : pool' = pool
    · have hne : digest ≠ d := fun heq => h _ List.mem_cons_self (by rw [hp, heq])
      simp only [PoolState.apply, if_pos hp, floorAt, List.lookup_append]
      simp [List.lookup_cons, beq_false_of_ne hne]
    · simp [PoolState.apply, hp]
  | setFloor pool' d floor =>
    left
    by_cases hp : pool' = pool
    · have hne : d ≠ digest := fun heq => h _ List.mem_cons_self (by rw [hp, heq])
      simp only [PoolState.apply, if_pos hp]
      exact floorAt_setFloor_ne hne floor
    · simp [PoolState.apply, hp]
  | putObject k o =>
    left
    simp only [PoolState.apply]
    split <;> rfl
  | insertRow r =>
    left
    simp only [PoolState.apply]
    split <;> rfl
  | deleteRow pool' k =>
    left
    simp only [PoolState.apply]
    split <;> rfl
  | putConsumed pool' n =>
    left
    simp only [PoolState.apply]
    split <;> rfl
  | setClaimKey k claim => exact Or.inl rfl
  | insertIdentity i => exact Or.inl rfl

theorem floorOf_apply_none {e : Effect} {pool : Key} (h : ∀ m ∈ e.footprint, m ≠ .seeded pool) {s : Db}
    {digest : String} (hnone : s.floorOf pool digest = none) : (e.apply s).floorOf pool digest = none := by
  by_cases hset : ∀ m ∈ e.footprint, m ≠ .floor pool digest
  · rcases floorOf_apply hset s with heq | heq
    · exact heq.trans hnone
    · exact heq
  · push Not at hset
    obtain ⟨m, hm, rfl⟩ := hset
    rw [floorOf_eq] at hnone ⊢
    rw [poolState_apply]
    cases e with
    | insertFloor pool' d floor =>
      simp only [Effect.footprint, List.mem_cons, Lock.floor.injEq, reduceCtorEq, List.not_mem_nil, or_false] at hm
      exact absurd (by rw [hm.1]) (h (.seeded pool') (by simp [Effect.footprint]))
    | setFloor pool' d floor =>
      simp only [Effect.footprint, List.mem_singleton, Lock.floor.injEq] at hm
      obtain ⟨rfl, rfl⟩ := hm
      simp only [PoolState.apply, if_true, floorAt_setFloor, hnone, Option.map_none]
    | _ => simp [Effect.footprint] at hm

theorem Lock.keeps_apply (strict : Bool) (l : Lock) (e : Effect) (s : Db)
    (h : ∀ m ∈ e.footprint, l.conflictsWith strict m = false) : l.keeps strict s (e.apply s) := by
  cases l with
  | row key =>
    apply rowsOf_apply
    rintro m hm rfl
    simpa [Lock.conflictsWith, Lock.conflicts] using h _ hm
  | floor pool digest =>
    apply floorOf_apply
    rintro m hm rfl
    simpa [Lock.conflictsWith, Lock.conflicts] using h _ hm
  | deleted pool =>
    rintro rfl digest
    apply floorOf_apply_none
    rintro m hm rfl
    simpa [Lock.conflictsWith, Lock.crosses] using h _ hm
  | _ => trivial

theorem insertRow_ok {s : Db} {r : Row} {es : List Effect} (h : insertRow s r = .ok es) : es = [.insertRow r] := by
  simp only [insertRow] at h
  repeat' split at h
  all_goals cases h
  rfl

theorem mem_rowLocks (r : Row) : Lock.row r.allocationKey ∈ rowLocks r :=
  List.mem_cons_self

theorem locks_cover (q : Stmt) (s : Db) (r : Res q) (es : List Effect) (h : exec q s = .ok (r, es)) :
    ∀ e ∈ es, ∀ l ∈ e.footprint, l ∈ locks q s := by
  cases q with
  | insertReservation row =>
    simp only [exec] at h
    simp only [locks]
    split at h
    · cases h
      simp
    · rename_i hfree
      rw [if_neg hfree]
      cases hins : insertRow s row with
      | error e =>
        rw [hins] at h
        cases h
      | ok es' =>
        rw [hins] at h
        cases h
        rw [insertRow_ok hins]
        simp [Effect.footprint, mem_rowLocks]
  | insertAllocation row =>
    simp only [exec] at h
    cases hins : insertRow s row with
    | error e =>
      rw [hins] at h
      cases h
    | ok es' =>
      rw [hins] at h
      cases h
      rw [insertRow_ok hins]
      simp [Effect.footprint, locks, mem_rowLocks]
  | retainAllocations claim =>
    cases h
    simp only [List.mem_map, locks, List.mem_flatMap]
    rintro _ ⟨key, ⟨row, hrow, rfl⟩, rfl⟩ l hl
    rw [List.mem_singleton.mp hl]
    exact ⟨row, hrow, mem_rowLocks row⟩
  | deleteAllocations cond =>
    cases h
    simp only [List.mem_map, locks, List.mem_flatMap]
    rintro _ ⟨row, hrow, rfl⟩ l hl
    rw [List.mem_singleton.mp hl]
    exact ⟨row, hrow, List.mem_cons_of_mem _ (mem_rowLocks row)⟩
  | bindScopeRange pool claim =>
    simp only [exec] at h
    split at h
    · cases h
      simp
    · rename_i row hfind
      split at h
      · cases h
      · cases h
        intro e he l hl
        rw [List.mem_singleton.mp he] at hl
        rw [List.mem_singleton.mp hl]
        simp only [locks, List.mem_flatMap]
        have hrow := List.find?_some hfind
        have hkey : row.allocationKey = pool := by
          simp only [Bool.and_eq_true, decide_eq_true_eq] at hrow
          exact hrow.1.1
        refine ⟨row, List.mem_filter.mpr ⟨List.mem_of_find?_eq_some hfind, hrow⟩, ?_⟩
        rw [← hkey]
        exact List.mem_cons_of_mem _ (mem_rowLocks row)
  | lowerFloor pool digest addr =>
    simp only [exec] at h
    simp only [locks]
    split at h
    · rename_i floor hfloor
      cases h
      simp [Effect.footprint, hfloor]
    · cases h
      simp
  | seedFloor pool digest base =>
    simp only [exec] at h
    simp only [locks]
    split at h
    · cases h
      simp
    · rename_i hfloor
      split at h
      · cases h
      · cases h
        simp [Effect.footprint, hfloor]
  | raiseFloor pool digest next observed =>
    simp only [exec] at h
    simp only [locks]
    split at h
    · rename_i hfloor
      cases h
      simp [Effect.footprint, hfloor]
    · cases h
      simp
  | claimPoolIdentity i =>
    simp only [exec] at h
    simp only [locks]
    split at h
    · cases h
      simp
    · rename_i hfree
      cases h
      simp [Effect.footprint, hfree]
  | insertObject | updateObject | deleteObject | writeConsumed =>
    simp only [exec] at h
    split at h
    all_goals
      cases h
      try simp [Effect.footprint, locks]
  | _ =>
    cases h
    simp

def rowLocking (strict : Bool) : Discipline postgres (Lock.conflictsWith strict) where
  footprint := Effect.footprint
  agree := Lock.keeps strict
  evolves _ _ := True
  conflict_comm := Lock.conflictsWith_comm strict
  agree_refl := Lock.keeps_refl strict
  agree_trans := Lock.keeps_trans strict
  agree_apply := Lock.keeps_apply strict
  locks_cover := locks_cover
  evolves_refl _ := trivial
  evolves_trans _ _ _ _ _ := trivial

end Ipam.Database
