import Ipam.Allocator.PoolTransactions
import Ipam.Allocator.SearchRefinement

namespace Ipam.Allocator

open Allocation Database Transaction

def Compatible (r o : Row) : Prop :=
  r.cidr.overlaps o.cidr = true → r.purpose = .claim ∧ o.purpose = .claim ∧ r.scopeDigest ≠ o.scopeDigest

instance : DecidableRel Compatible :=
  fun _ _ => inferInstanceAs (Decidable (_ → _))

def NoConflict (rows : List Row) : Prop :=
  rows.Pairwise Compatible

instance : DecidablePred NoConflict :=
  fun rows => inferInstanceAs (Decidable (rows.Pairwise Compatible))

theorem NoConflict.record {x : PoolState} {p : Cidr} {r : Row} (h : NoConflict x.rows)
    (hr : ∀ o ∈ x.rows, Compatible o r) : NoConflict (PoolState.record x p r).rows := by
  apply List.pairwise_append.mpr
  refine ⟨h, List.pairwise_singleton _ _, ?_⟩
  intro o ho b hb
  rw [List.mem_singleton.mp hb]
  exact hr o ho

theorem compatible_of_free {o r : Row}
    (hfree : o.blocks (Row.searchedUnder r) = true → o.cidr.overlaps r.cidr = false) : Compatible o r := by
  intro hover
  have hblocks : o.blocks (Row.searchedUnder r) ≠ true := by
    intro hblocks
    rw [hfree hblocks] at hover
    cases hover
  simp only [Row.blocks, Row.searchedUnder, spaceAll] at hblocks
  by_cases hr : r.purpose = .claim
  · simp only [if_pos hr, ne_eq, Bool.or_eq_true, decide_eq_true_eq, decide_not, Bool.not_eq_true',
      decide_eq_false_iff_not, not_or, not_not] at hblocks
    exact ⟨hblocks.1.2, hr, hblocks.2⟩
  · simp [hr] at hblocks

theorem NoConflict.step {emptyDigest : String} {k : Key} {p : Cidr} (hm : ¬ p.MeetsMapped) {x y : PoolState}
    (h : NoConflict x.rows) (hstep : PoolStep emptyDigest k p x y) : NoConflict y.rows := by
  cases hstep with
  | reserve _ _ hapart =>
    apply h.record
    intro o ho hover
    cases hover.symm.trans (hapart o ho)
  | allocate _ _ _ _ hfree => exact h.record fun o ho => compatible_of_free (hfree hm o ho)
  | publish _ _ => exact h
  | seedFloor _ _ => exact h
  | raiseFloor _ _ _ _ => exact h

theorem noConflict_kept (strict : Bool) (emptyDigest : String) (k : Key) {p : Cidr} (hm : ¬ p.MeetsMapped) :
    Kept strict emptyDigest k p (fun x => Based k p x ∧ NoConflict x.rows) (fun _ _ _ => True) where
  based := fun _ h => h.1
  steps := by
    rintro x y ⟨hbased, hrows⟩ hsteps -
    exact ⟨hsteps.preserves (fun _ _ h hs => h.step hs) hbased,
      hsteps.preserves (K := fun x => NoConflict x.rows) (fun _ _ h hs => h.step hm hs) hrows⟩
  lowers := lowers_trivial
  release := by
    rintro released past x y z - - ⟨hbased, hrows⟩ hremoved - hsettles
    refine ⟨hsettles.based (hremoved.based hbased), ?_⟩
    rw [hsettles.rows, hremoved.rows]
    exact hrows.sublist List.filter_sublist

theorem noConflict_poolRows {s : Db} {k : Key} :
    NoConflict (s.poolRows k) ↔ NoConflict (s.rows.filter fun r => r.poolKey = k) := by
  simp only [NoConflict, Db.poolRows, List.pairwise_map]
  rfl

theorem noConflict_committed (emptyDigest : String) (k : Key) (p : Cidr) (hm : ¬ p.MeetsMapped) (init : Db)
    (hinit : Fresh k p init) (w : World Stmt Res Err Db Effect Lock)
    (hw : Reachable postgres Lock.conflicts (PoolTxn emptyDigest) (fun _ _ => True) init w) :
    NoConflict (w.committed.rows.filter fun r => r.poolKey = k) := by
  rw [← Lock.conflictsWith_false] at hw
  have hrows : NoConflict (init.poolState k).rows := by
    rw [Db.poolState, hinit.rows]
    exact List.Pairwise.nil
  exact noConflict_poolRows.mp ((noConflict_kept false emptyDigest k hm).reachable ⟨hinit.based, hrows⟩ hw).2

def officeTxns : List (Tx Unit) :=
  [(allocatePrefix "none" (claimOf officeKey "a" "tenant" 28)).void,
    (allocatePrefix "none" (claimOf officeKey "b" "other" 27)).void,
    (carveFromPool "none" officeKey 28 ⟨.object "infra" .ippools "" "child", "child"⟩).void]

theorem officeTxns_allowed : ∀ p ∈ officeTxns, PoolTxn "none" p := by
  simp only [officeTxns, List.forall_mem_cons]
  exact ⟨.allocatePrefix _, .allocatePrefix _, .carveFromPool _ _ _, by simp⟩

theorem noConflict_committed_office :
    ∃ w : World Stmt Res Err Db Effect Lock, w.committed.rows.length = 3 ∧
      NoConflict (w.committed.rows.filter fun r => r.poolKey = officeKey) := by
  have hreach : ∃ w, Reachable postgres Lock.conflicts (PoolTxn "none") (fun _ _ => True)
      (poolDb officeKey officePool .firstFit) w ∧ decide (w.committed.rows.length = 3) = true :=
    Reachable.exists_of_runAll (f := fun s : Db => decide (s.rows.length = 3)) (fun _ _ _ => trivial)
      (fun _ _ _ => trivial) (fun _ _ _ => trivial) officeTxns_allowed (by decide +kernel)
  obtain ⟨w, hw, hlength⟩ := hreach
  exact ⟨w, of_decide_eq_true hlength, noConflict_committed "none" officeKey officePool (by decide) _
    (poolDb_fresh _ _ _) w hw⟩

def edgeTxns : List (Tx Unit) :=
  [(allocatePrefix "none" (claimOf edgeKey "a" "tenant" 96)).void,
    (allocatePrefix "none" (claimOf edgeKey "b" "tenant" 97)).void,
    (carveFromPool "none" edgeKey 97 ⟨.object "infra" .ippools "" "child", "child"⟩).void]

theorem edgeTxns_allowed : ∀ p ∈ edgeTxns, PoolTxn "none" p := by
  simp only [edgeTxns, List.forall_mem_cons]
  exact ⟨.allocatePrefix _, .allocatePrefix _, .carveFromPool _ _ _, by simp⟩

theorem noConflict_edge_fails :
    ∃ w, Reachable postgres Lock.conflicts (PoolTxn "none") (fun _ _ => True) (poolDb edgeKey edgePool .bestFit) w ∧
      ¬ NoConflict (w.committed.rows.filter fun r => r.poolKey = edgeKey) := by
  have hreach : ∃ w, Reachable postgres Lock.conflicts (PoolTxn "none") (fun _ _ => True)
      (poolDb edgeKey edgePool .bestFit) w ∧
        decide (¬ NoConflict (w.committed.rows.filter fun r => r.poolKey = edgeKey)) = true :=
    Reachable.exists_of_runAll (f := fun s : Db => decide (¬ NoConflict (s.rows.filter fun r => r.poolKey = edgeKey)))
      (fun _ _ _ => trivial) (fun _ _ _ => trivial) (fun _ _ _ => trivial) edgeTxns_allowed (by decide +kernel)
  obtain ⟨w, hw, hconflict⟩ := hreach
  exact ⟨w, hw, of_decide_eq_true hconflict⟩

end Ipam.Allocator
