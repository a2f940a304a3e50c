import Ipam.Allocator.FloorTrigger
import Ipam.Lib.Deadlock

/-!
The order in which the transactions of a pool take its row locks: the pool's object, its search floors, its
consumption. Allocation takes the object first. A release takes the floors that its delete lowers before the object.
-/

namespace Ipam.Allocator

open Allocation Database Transaction

def poolLock (k : Key) : Lock → Bool
  | .object o => o = k
  | .floor pool _ => pool = k
  | .consumption pool => pool = k
  | _ => false

def firstLock (k : Key) : Stmt → Bool
  | .lockObject o => o = k
  | .lowerFloor pool _ _ => pool = k
  | _ => false

inductive OnePool (emptyDigest : String) (k : Key) : Tx Unit → Prop where
  | allocatePrefix (req : PrefixRequest) (h : req.poolKey = k) :
      OnePool emptyDigest k (allocatePrefix emptyDigest req).void
  | carveFromPool (n : ℤ) (carve : PoolCarve) : OnePool emptyDigest k (carveFromPool emptyDigest k n carve).void
  | release (claim : Key) : OnePool emptyDigest k (release claim).void
  | releaseAllocation (key : Key) : OnePool emptyDigest k (releaseAllocation key)
  | releasePoolReservations : OnePool emptyDigest k (releasePoolReservations k)

section

variable {k : Key} {α : Type}

abbrev LocksFirst (k : Key) (p : Tx α) : Prop :=
  Enters postgres (poolLock k) (.object k) (firstLock k) p

theorem rowLocks_other (r : Row) {l : Lock} (h : l ∈ rowLocks r) : poolLock k l = false := by
  cases List.mem_cons.mp h with
  | inl heq => exact heq ▸ rfl
  | inr hl =>
    obtain ⟨c, -, rfl⟩ := List.mem_map.mp hl
    rfl

theorem send_locksFirst {q : Stmt} (h : ∀ s, ∀ l ∈ locks q s, poolLock k l = false) : LocksFirst k (send q) :=
  ⟨.inr h, fun _ _ _ _ => .inr trivial⟩

theorem read_locksFirst {q : Stmt} (h : ∀ s, locks q s = []) : LocksFirst k (send q) := by
  apply send_locksFirst
  intro s l hl
  rw [h] at hl
  simp at hl

theorem lockObject_locksFirst {f : Option Object → Tx α} (hf : LocksFirst k (f none)) :
    LocksFirst k (send (.lockObject k) >>= f) := by
  refine ⟨.inl (by simp [firstLock]), ?_⟩
  intro s r es hexec
  obtain ⟨rfl, rfl⟩ := Prod.mk.inj (Except.ok.inj hexec)
  by_cases hsome : (s.object k).isSome
  · left
    change _ ∈ locks (.lockObject k) s
    simp [locks, hsome]
  · right
    have hnone : s.object k = none := by simpa using hsome
    change LocksFirst k (f (s.object k))
    rw [hnone]
    exact hf

theorem lockAndDecode_locksFirst (f : IPPool → Tx α) : LocksFirst k (lockAndDecodeIPPool k >>= f) :=
  lockObject_locksFirst trivial

theorem sendAll_locksFirst {β : Type} {f : β → Tx Unit} (hf : ∀ b, LocksFirst k (f b)) (bs : List β) :
    LocksFirst k (sendAll f bs) := by
  induction bs with
  | nil => trivial
  | cons b rest ih => exact (hf b).bind fun _ => ih

theorem lowerFloor_locksFirst (pool : Key) (digest : String) (a : IP) :
    LocksFirst k (send (.lowerFloor pool digest a)) := by
  refine ⟨?_, fun _ _ _ _ => .inr trivial⟩
  by_cases hk : pool = k
  · exact .inl (by simp [firstLock, hk])
  · right
    intro s l hl
    have hl : l ∈ locks (.lowerFloor pool digest a) s := hl
    simp only [locks] at hl
    split at hl
    · obtain rfl := List.mem_singleton.mp hl
      simpa [poolLock] using hk
    · simp at hl

theorem lowerSearchFloor_locksFirst (old : Row) : LocksFirst k (lowerSearchFloor old) := by
  apply (read_locksFirst fun _ => rfl).bind
  exact sendAll_locksFirst fun digest => lowerFloor_locksFirst _ _ _

theorem consumptionAfterRelease_locksFirst (pool : Key) (parents : List IPNet) (block : IPNet) :
    LocksFirst k (consumptionAfterRelease pool parents block) := by
  have hseed : LocksFirst k (seedConsumption pool parents) := by
    apply (read_locksFirst fun _ => rfl).bind
    exact fun existing => (Enters.ofExcept _ _).bind fun _ => trivial
  have hoverlapping : LocksFirst k (loadOverlapping pool block) :=
    (Enters.ofOption _ _).bind fun text => read_locksFirst (q := .loadOverlapping pool text) fun _ => rfl
  apply hoverlapping.bind
  intro overlapping
  apply (read_locksFirst fun _ => rfl).bind
  intro recorded
  cases recorded with
  | none => exact hseed
  | some base => exact (Enters.ofExcept _ _).bind fun _ => trivial

theorem publishRelease_locksFirst (old : Row) : LocksFirst k (publishRelease old) := by
  by_cases hk : old.poolKey = k
  · subst hk
    exact lockObject_locksFirst trivial
  have hlock : LocksFirst k (send (.lockObject old.poolKey)) := by
    apply send_locksFirst
    intro s l hl
    simp only [locks] at hl
    split at hl
    · obtain rfl := List.mem_singleton.mp hl
      simpa [poolLock] using hk
    · simp at hl
  apply hlock.bind
  intro o
  split
  · trivial
  rename_i pool _
  have hparse : LocksFirst k (parsePoolCIDR pool) := (Enters.ofOption _ _).bind fun _ => trivial
  apply hparse.bind
  intro parents
  apply (consumptionAfterRelease_locksFirst _ _ _).bind
  intro consumed
  have hwrite : LocksFirst k (writeConsumed old.poolKey consumed) := by
    apply send_locksFirst
    intro s l hl
    obtain rfl := List.mem_singleton.mp hl
    simpa [poolLock] using hk
  apply hwrite.bind
  intro _
  apply send_locksFirst
  intro s l hl
  obtain rfl := List.mem_singleton.mp hl
  simpa [poolLock] using hk

theorem deleteAllocations_locksFirst (cond : DeleteCond) : LocksFirst k (deleteAllocations cond) := by
  have hdelete : LocksFirst k (send (.deleteAllocations cond)) := by
    apply send_locksFirst
    intro s l hl
    simp only [locks, List.mem_flatMap] at hl
    obtain ⟨r, -, hl⟩ := hl
    cases List.mem_cons.mp hl with
    | inl heq => exact heq ▸ rfl
    | inr hl => exact rowLocks_other r hl
  apply hdelete.bind
  intro released
  apply (sendAll_locksFirst lowerSearchFloor_locksFirst released).bind
  exact fun _ => sendAll_locksFirst publishRelease_locksFirst released

theorem release_locksFirst (claim : Key) : LocksFirst k (release claim) := by
  have hretain : LocksFirst k (send (.retainAllocations claim)) := by
    apply send_locksFirst
    intro s l hl
    simp only [locks, List.mem_flatMap] at hl
    obtain ⟨r, -, hl⟩ := hl
    exact rowLocks_other r hl
  apply hretain.bind
  intro retained
  exact (deleteAllocations_locksFirst _).bind fun _ => trivial

theorem OnePool.locksFirst {emptyDigest : String} {p : Tx Unit} (h : OnePool emptyDigest k p) : LocksFirst k p := by
  cases h with
  | allocatePrefix req hk =>
    subst hk
    exact Enters.bind (lockAndDecode_locksFirst _) fun _ => trivial
  | carveFromPool n carve => exact Enters.bind (lockAndDecode_locksFirst _) fun _ => trivial
  | release claim => exact (release_locksFirst claim).bind fun _ => trivial
  | releaseAllocation key => exact deleteAllocations_locksFirst _
  | releasePoolReservations => exact deleteAllocations_locksFirst _

end

/-- A transaction locks the pool's object, or lowers a floor of the pool without holding the object, only while no
other open transaction holds a lock of the pool. -/
abbrev LocksAlone (k : Key) : World Stmt Res Err Db Effect Lock → Label Stmt Res Err → Prop :=
  EntersAlone (poolLock k) (.object k) (firstLock k)

theorem poolLocks_acyclic (emptyDigest : String) (k : Key) (init : Db) (w : World Stmt Res Err Db Effect Lock)
    (hw : Reachable postgres Lock.conflicts (OnePool emptyDigest k) (LocksAlone k) init w) :
    ¬ w.Deadlocked postgres Lock.conflicts (poolLock k) :=
  (Reachable.alone (by simp [poolLock]) (fun _ hp => OnePool.locksFirst hp) hw).not_deadlocked

theorem locksAlone_single (k : Key) {w : World Stmt Res Err Db Effect Lock} (t : ℕ) (h : w.txns.length = 1) :
    LocksAlone k w (.exec t) := by
  obtain ⟨x, hx⟩ := List.length_eq_one_iff.mp h
  intro q next log held hfind _ _ y hy hyt
  have hmem := w.mem_of_find hfind
  rw [hx, List.mem_singleton] at hy hmem
  exact absurd (hy ▸ hmem ▸ rfl) hyt

def releaseClaimTxn : Tx Unit := (release (.object "infra" .ipclaims "" "a")).void

def nextClaimTxn : Tx Unit := (allocatePrefix "none" (claimOf officeKey "b" "tenant" 28)).void

def runsAlone (w : World Stmt Res Err Db Effect Lock) : Label Stmt Res Err → Bool
  | .exec _ => w.txns.length = 1
  | _ => true

/-- While an allocation holds the pool's object, another one and a carve come to it. -/
def queuedLabels : List (Label Stmt Res Err) :=
  .start 0 searchTxn :: execs 0 3 ++ [.start 1 nextClaimTxn, .start 2 carveTxn]

theorem poolLocks_acyclic_queued :
    ∃ w : World Stmt Res Err Db Effect Lock, w.waits postgres Lock.conflicts (poolLock officeKey) 1 0 = true ∧
      w.waits postgres Lock.conflicts (poolLock officeKey) 2 0 = true ∧
      ¬ w.Deadlocked postgres Lock.conflicts (poolLock officeKey) := by
  have hreach : ∃ w, Reachable postgres Lock.conflicts (OnePool "none" officeKey) (LocksAlone officeKey)
      (poolDb officeKey officePool .firstFit) w ∧ (w.waits postgres Lock.conflicts (poolLock officeKey) 1 0 &&
        w.waits postgres Lock.conflicts (poolLock officeKey) 2 0) = true := by
    apply Reachable.exists_of_checked runsAlone queuedLabels
    · intro w l _ hl
      cases l with
      | exec t => exact locksAlone_single officeKey t (of_decide_eq_true hl)
      | start | commit | abort => trivial
    · intro t p hp
      simp only [queuedLabels, execs, List.replicate, List.cons_append, List.nil_append, List.mem_cons,
        Label.start.injEq, reduceCtorEq, false_or, or_false, List.not_mem_nil] at hp
      rcases hp with ⟨-, rfl⟩ | ⟨-, rfl⟩ | ⟨-, rfl⟩
      · exact .allocatePrefix _ rfl
      · exact .allocatePrefix _ rfl
      · exact .carveFromPool _ _
    · decide +kernel
  obtain ⟨w, hw, hwaits⟩ := hreach
  rw [Bool.and_eq_true] at hwaits
  exact ⟨w, hwaits.1, hwaits.2, poolLocks_acyclic "none" officeKey _ w hw⟩

/-- An allocation holds the pool's object and comes to its space's floor; a release has deleted its row, lowered that
floor and comes to the pool's object. -/
def crossingLabels : List (Label Stmt Res Err) :=
  .start 0 searchTxn :: execs 0 12 ++ .commit 0 :: .start 1 nextClaimTxn :: execs 1 2 ++
    .start 2 releaseClaimTxn :: execs 2 4

theorem crossingLabels_allowed (t : ℕ) (p : Tx Unit) (h : Label.start t p ∈ crossingLabels) :
    OnePool "none" officeKey p := by
  simp only [crossingLabels, execs, List.replicate, List.cons_append, List.nil_append, List.mem_cons,
    Label.start.injEq, reduceCtorEq, false_or, or_false, List.not_mem_nil] at h
  rcases h with ⟨-, rfl⟩ | ⟨-, rfl⟩ | ⟨-, rfl⟩
  · exact .allocatePrefix _ rfl
  · exact .allocatePrefix _ rfl
  · exact .release _

theorem poolLocks_crossing :
    ∃ w, Reachable postgres Lock.conflicts (OnePool "none" officeKey) (fun _ _ => True)
        (poolDb officeKey officePool .firstFit) w ∧
      w.Deadlocked postgres Lock.conflicts (poolLock officeKey) := by
  have hreach : ∃ w, Reachable postgres Lock.conflicts (OnePool "none" officeKey) (fun _ _ => True)
      (poolDb officeKey officePool .firstFit) w ∧
        (w.waits postgres Lock.conflicts (poolLock officeKey) 1 2 &&
          w.waits postgres Lock.conflicts (poolLock officeKey) 2 1) = true :=
    Reachable.exists_world_of_steps (f := fun w => w.waits postgres Lock.conflicts (poolLock officeKey) 1 2 &&
      w.waits postgres Lock.conflicts (poolLock officeKey) 2 1) _ (fun _ _ _ => trivial) crossingLabels_allowed
      (by decide +kernel)
  obtain ⟨w, hw, hwaits⟩ := hreach
  exact ⟨w, hw, World.deadlocked_of_waits hwaits⟩

end Ipam.Allocator
