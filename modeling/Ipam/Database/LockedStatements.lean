import Ipam.Database.PoolState

namespace Ipam.Database

open Allocation Transaction

inductive Refused (x : PoolState) (r : Row) : Err → Prop where
  | claimKey : Refused x r .claimKeyTaken
  | allocationKey : Refused x r .allocationKeyTaken
  | overlap (o : Row) (ho : o ∈ x.rows) (hd : o.scopeDigest = r.scopeDigest) (hc : o.cidr.overlaps r.cidr = true) :
      Refused x r .rangesOverlap
  | missing (h : x.pool = none) : Refused x r .poolMissing

structure Admitted (x : PoolState) (r : Row) : Prop where
  key : ∀ o ∈ x.rows, o.allocationKey ≠ r.allocationKey
  apart : ∀ o ∈ x.rows, o.scopeDigest = r.scopeDigest → o.cidr.overlaps r.cidr = false

def PoolState.addRow (x : PoolState) (r : Row) : PoolState :=
  { x with rows := x.rows ++ [r.unclaimed] }

theorem pool_none_of_object {s : Db} {k : Key} (h : s.object k = none) : s.pool k = none := by
  simp only [Db.pool, h]

theorem insertRow_cases {s : Db} {k : Key} {r : Row} (hr : r.poolKey = k) :
    (∃ e, insertRow s r = .error e ∧ Refused (s.poolState k) r e) ∨
      (insertRow s r = .ok [.insertRow r] ∧ Admitted (s.poolState k) r) := by
  subst hr
  simp only [insertRow]
  split
  · exact Or.inl ⟨_, rfl, .claimKey⟩
  split
  · exact Or.inl ⟨_, rfl, .allocationKey⟩
  rename_i hkey
  split
  · rename_i hover
    simp only [List.any_eq_true, Bool.and_eq_true, decide_eq_true_eq] at hover
    obtain ⟨o, ho, hd, hc⟩ := hover
    exact Or.inl ⟨_, rfl, .overlap o ho hd hc⟩
  rename_i hover
  split
  · rename_i hnone
    exact Or.inl ⟨_, rfl, .missing (pool_none_of_object (Option.isNone_iff_eq_none.mp hnone))⟩
  · refine Or.inr ⟨rfl, ?_, ?_⟩
    · intro o ho heq
      apply hkey
      obtain ⟨o', ho', rfl⟩ := List.mem_map.mp ho
      simp only [List.any_eq_true, decide_eq_true_eq]
      exact ⟨o', (List.mem_filter.mp ho').1, heq⟩
    · intro o ho hd
      by_contra hc
      apply hover
      simp only [List.any_eq_true, Bool.and_eq_true, decide_eq_true_eq]
      exact ⟨o, ho, hd, by simpa using hc⟩

theorem poolState_insertRow {s : Db} {k : Key} {r : Row} (hr : r.poolKey = k) :
    (postgres.view [.insertRow r] s).poolState k = (s.poolState k).addRow r := by
  rw [poolState_view]
  simp [PoolState.apply, PoolState.addRow, hr]

section

variable {Others : List Lock → Db → Db → Prop} {guard : Lock} {k : Key} {x : PoolState} {α : Type}
  {Q : α → PoolState → Prop} {X : Err → PoolState → Prop}

theorem locked_insertAllocation (F : PoolFrozen Others guard k) {r : Row}
    (hr : r.poolKey = k) {f : Res (.insertAllocation r) → Tx α} (herror : ∀ e, Refused x r e → X e x)
    (hok : Admitted x r → Locked postgres Others guard (Db.poolState k) (x.addRow r) (f ()) Q X) :
    Locked postgres Others guard (Db.poolState k) x (Prog.call (.insertAllocation r) >>= f) Q X := by
  apply Locked.step F
  · rintro s e rfl he
    have hexec : (insertRow s r).map (fun es => ((), es)) = .error e := he
    rcases insertRow_cases hr with ⟨e', he', href⟩ | ⟨hins, -⟩
    · rw [he'] at hexec
      obtain rfl := Except.error.inj hexec
      exact herror e' href
    · rw [hins] at hexec
      cases hexec
  · rintro s ⟨⟩ es rfl he
    have hexec : (insertRow s r).map (fun es => ((), es)) = .ok ((), es) := he
    rcases insertRow_cases hr with ⟨e', he', href⟩ | ⟨hins, hadm⟩
    · rw [he'] at hexec
      cases hexec
    · rw [hins] at hexec
      obtain rfl := (Prod.mk.inj (Except.ok.inj hexec)).2
      rw [poolState_insertRow hr]
      exact hok hadm

theorem locked_insertReservation (F : PoolFrozen Others guard k) {r : Row}
    (hr : r.poolKey = k) {f : Res (.insertReservation r) → Tx α} (herror : ∀ e, Refused x r e → X e x)
    (hheld : Locked postgres Others guard (Db.poolState k) x (f false) Q X)
    (hok : Admitted x r → (∀ o ∈ x.rows, o.cidr.overlaps r.cidr = false) →
      Locked postgres Others guard (Db.poolState k) (x.addRow r) (f true) Q X) :
    Locked postgres Others guard (Db.poolState k) x (Prog.call (.insertReservation r) >>= f) Q X := by
  have hexec : ∀ s : Db, postgres.exec (.insertReservation r) s =
      if (s.poolRows r.poolKey).any (fun o => o.cidr.overlaps r.cidr) then .ok (false, [])
      else (insertRow s r).map fun es => (true, es) := fun s => rfl
  apply Locked.step F
  · rintro s e rfl he
    rw [hexec] at he
    split at he
    · cases he
    · rcases insertRow_cases hr with ⟨e', he', href⟩ | ⟨hins, -⟩
      · rw [he'] at he
        obtain rfl := Except.error.inj he
        exact herror e' href
      · rw [hins] at he
        cases he
  · rintro s b es rfl he
    rw [hexec] at he
    split at he
    · obtain ⟨rfl, rfl⟩ := Prod.mk.inj (Except.ok.inj he)
      exact hheld
    · rename_i hfree
      rcases insertRow_cases hr with ⟨e', he', href⟩ | ⟨hins, hadm⟩
      · rw [he'] at he
        cases he
      · rw [hins] at he
        obtain ⟨rfl, rfl⟩ := Prod.mk.inj (Except.ok.inj he)
        rw [poolState_insertRow hr]
        apply hok hadm
        intro o ho
        subst hr
        simp only [List.any_eq_true, not_exists, not_and, Bool.not_eq_true] at hfree
        exact hfree o ho

theorem locked_writeConsumed (F : PoolFrozen Others guard k) (n : ℕ) {f : Res (.writeConsumed k n) → Tx α}
    (herror : x.pool = none → X .poolMissing x)
    (hok : Locked postgres Others guard (Db.poolState k) { x with consumed := some n } (f ()) Q X) :
    Locked postgres Others guard (Db.poolState k) x (Prog.call (.writeConsumed k n) >>= f) Q X := by
  have hexec : ∀ s : Db, postgres.exec (.writeConsumed k n) s =
      if (s.object k).isNone then .error .poolMissing else .ok ((), [.putConsumed k n]) := fun s => rfl
  apply Locked.step F
  · rintro s e rfl he
    rw [hexec] at he
    split at he
    · rename_i hnone
      obtain rfl := Except.error.inj he
      exact herror (pool_none_of_object (Option.isNone_iff_eq_none.mp hnone))
    · cases he
  · rintro s ⟨⟩ es rfl he
    rw [hexec] at he
    split at he
    · cases he
    · obtain ⟨-, rfl⟩ := Prod.mk.inj (Except.ok.inj he)
      have hview : (postgres.view [.putConsumed k n] s).poolState k =
          { s.poolState k with consumed := some n } := by
        rw [poolState_view]
        simp [PoolState.apply]
      rw [hview]
      exact hok

theorem locked_updatePool (F : PoolFrozen Others guard k) (pool : IPPool)
    {f : Res (.updateObject k (.pool pool)) → Tx α}
    (herror : x.pool = none → X .objectNotFound x)
    (hok : Locked postgres Others guard (Db.poolState k) { x with pool := some pool } (f ()) Q X) :
    Locked postgres Others guard (Db.poolState k) x (Prog.call (.updateObject k (.pool pool)) >>= f) Q X := by
  have hexec : ∀ s : Db, postgres.exec (.updateObject k (.pool pool)) s =
      if (s.object k).isNone then .error .objectNotFound else .ok ((), [.putObject k (.pool pool)]) := fun s => rfl
  apply Locked.step F
  · rintro s e rfl he
    rw [hexec] at he
    split at he
    · rename_i hnone
      obtain rfl := Except.error.inj he
      exact herror (pool_none_of_object (Option.isNone_iff_eq_none.mp hnone))
    · cases he
  · rintro s ⟨⟩ es rfl he
    rw [hexec] at he
    split at he
    · cases he
    · obtain ⟨-, rfl⟩ := Prod.mk.inj (Except.ok.inj he)
      have hview : (postgres.view [.putObject k (.pool pool)] s).poolState k =
          { s.poolState k with pool := some pool } := by
        rw [poolState_view]
        simp [PoolState.apply, Object.asPool]
      rw [hview]
      exact hok

theorem pool_eq_asPool (s : Db) (k : Key) : s.pool k = (s.object k).bind Object.asPool := by
  simp only [Db.pool]
  cases s.object k with
  | none => rfl
  | some o => cases o <;> rfl

theorem locked_lockPool (F : PoolFrozen Others guard k) {f : Res (.lockObject k) → Tx α}
    (hok : ∀ o : Option Object, o.bind Object.asPool = x.pool →
      Locked postgres Others guard (Db.poolState k) x (f o) Q X) :
    Locked postgres Others guard (Db.poolState k) x (Prog.call (.lockObject k) >>= f) Q X := by
  apply Locked.step F
  · rintro s e rfl he
    cases he
  · rintro s o es rfl he
    obtain ⟨rfl, rfl⟩ := Prod.mk.inj (Except.ok.inj he)
    exact hok _ (pool_eq_asPool s k).symm

theorem locked_seedFloor (F : PoolFrozen Others guard k) (d : String) (base : IP)
    {f : Res (.seedFloor k d base) → Tx α} (herror : x.pool = none → X .poolMissing x)
    (hseeded : floorAt x.floors d ≠ none → Locked postgres Others guard (Db.poolState k) x (f ()) Q X)
    (hseed : floorAt x.floors d = none →
      Locked postgres Others guard (Db.poolState k) { x with floors := x.floors ++ [(d, base)] } (f ()) Q X) :
    Locked postgres Others guard (Db.poolState k) x (Prog.call (.seedFloor k d base) >>= f) Q X := by
  apply Locked.step F
  · rintro s e rfl hexec
    have he : exec (.seedFloor k d base) s = .error e := hexec
    simp only [exec] at he
    split at he
    · cases he
    split at he
    · rename_i hnone
      obtain rfl := Except.error.inj he
      exact herror (pool_none_of_object (Option.isNone_iff_eq_none.mp hnone))
    · cases he
  · rintro s ⟨⟩ es rfl hexec
    have he : exec (.seedFloor k d base) s = .ok ((), es) := hexec
    simp only [exec] at he
    split at he
    · rename_i floor hfloor
      obtain ⟨-, rfl⟩ := Prod.mk.inj (Except.ok.inj he)
      have hsome : floorAt (s.poolState k).floors d = some floor := hfloor
      exact hseeded (by simp [hsome])
    · rename_i hfloor
      split at he
      · cases he
      · obtain ⟨-, rfl⟩ := Prod.mk.inj (Except.ok.inj he)
        have hview : (postgres.view [.insertFloor k d base] s).poolState k =
            { s.poolState k with floors := (s.poolState k).floors ++ [(d, base)] } := by
          rw [poolState_view]
          simp [PoolState.apply]
        rw [hview]
        exact hseed hfloor

def setFloorAt (floors : List (String × IP)) (d : String) (floor : IP) : List (String × IP) :=
  floors.map fun f => if f.1 = d then (f.1, floor) else f

theorem locked_raiseFloor (F : PoolFrozen Others guard k) (d : String) (next observed : IP)
    {f : Res (.raiseFloor k d next observed) → Tx α}
    (hmoved : floorAt x.floors d ≠ some observed → Locked postgres Others guard (Db.poolState k) x (f ()) Q X)
    (hraise : floorAt x.floors d = some observed →
      Locked postgres Others guard (Db.poolState k) { x with floors := setFloorAt x.floors d next } (f ()) Q X) :
    Locked postgres Others guard (Db.poolState k) x (Prog.call (.raiseFloor k d next observed) >>= f) Q X := by
  have hexec : ∀ s : Db, postgres.exec (.raiseFloor k d next observed) s =
      if floorAt (s.poolFloors k) d = some observed then .ok ((), [.setFloor k d next]) else .ok ((), []) :=
    fun s => rfl
  apply Locked.step F
  · rintro s e rfl he
    rw [hexec] at he
    split at he
    · cases he
    · cases he
  · rintro s ⟨⟩ es rfl he
    rw [hexec] at he
    split at he
    · rename_i hfloor
      obtain ⟨-, rfl⟩ := Prod.mk.inj (Except.ok.inj he)
      have hview : (postgres.view [.setFloor k d next] s).poolState k =
          { s.poolState k with floors := setFloorAt (s.poolState k).floors d next } := by
        rw [poolState_view]
        simp [PoolState.apply, setFloorAt]
      rw [hview]
      exact hraise hfloor
    · rename_i hfloor
      obtain ⟨-, rfl⟩ := Prod.mk.inj (Except.ok.inj he)
      exact hmoved hfloor

end

end Ipam.Database
