import Ipam.Allocator.PoolTransactions
import Ipam.Lib.Versions
import Ipam.Registry.Claims

namespace Ipam.Registry

open Allocation Allocator Cascade Database Transaction

def guaranteedUpdateOnce (key : Key) (zero : Option Object) (preconditions : Object → Bool)
    (tryUpdate : Object → Except Err Object) : Tx Unit := do
  let o : Option Object ← send (.lockObject key)
  match o with
  | none => do
    let existing ← Prog.ofOption .objectNotFound zero
    if preconditions existing then do
      let ret ← Prog.ofExcept id (tryUpdate existing)
      send (.insertObject key ret)
    else .throw .conflict
  | some existing =>
    if preconditions existing then do
      let ret ← Prog.ofExcept id (tryUpdate existing)
      if ret = existing then pure () else send (.updateObject key ret)
    else .throw .conflict

/-- The first transaction of the deletion of a block claim. The read that precedes it keeps no lock, so it stands in
the transaction itself. -/
def publishReleasing (key : Key) : Tx Unit := do
  let claim ← ipClaimStrategy.get key
  send (.updateObject key (.claim { claim with phase := .releasing }))

inductive ObjectTxn (emptyDigest : String) : Tx Unit → Prop where
  | guaranteedUpdate (key : Key) (zero : Option Object) (preconditions : Object → Bool)
      (tryUpdate : Object → Except Err Object) :
      ObjectTxn emptyDigest (guaranteedUpdateOnce key zero preconditions tryUpdate)
  | publishReleasing (key : Key) : ObjectTxn emptyDigest (publishReleasing key)
  | releaseAndDelete (tenant namespace_ : String) (claim : IPClaim) (key : Key) :
      ObjectTxn emptyDigest (releaseAndDelete tenant namespace_ claim key)
  | capacity {p : Tx Unit} (h : PoolTxn emptyDigest p) : ObjectTxn emptyDigest p

def document : Effect → Option Key
  | .putObject k _ => some k
  | .removeObject k => some k
  | _ => none

/-- The objects whose present version a statement reads. An INSERT finds its key free and a DELETE its row, both when
they act; an UPDATE writes what the transaction brings along. -/
def documentsRead : Stmt → Db → List Key
  | .getObject k, s => if (s.object k).isSome then [k] else []
  | .lockObject k, s => if (s.object k).isSome then [k] else []
  | .insertObject k _, _ => [k]
  | .deleteObject k, _ => [k]
  | _, _ => []

abbrev versionedPostgres : Transaction.Database Stmt Res Err (Db × (Key → ℕ)) (Effect ⊕ Key × ℕ) Lock :=
  postgres.versioned document documentsRead

section

variable {α : Type} {known : Key → Prop}

abbrev ReadsFirst (known : Key → Prop) (p : Tx α) : Prop :=
  Informed postgres document documentsRead known p

theorem document_on {k j : Key} {e : Effect} (h : Effect.On k e) (hj : document e = some j) : j = k := by
  cases e with
  | putObject k' o => exact (Option.some.inj hj).symm.trans h.1
  | removeObject k' => exact h.elim
  | _ => cases hj

theorem readsFirst_of_plain {p : Tx α} (h : Emits postgres (fun e => document e = none) p) : ReadsFirst known p := by
  apply Informed.of_emits
  apply h.mono
  intro e he k hk
  rw [he] at hk
  cases hk

theorem object_of_read {q : Stmt} {k : Key} {s : Db} {o : Option Object} {es : List Effect}
    {f : Option Object → Tx α} (h : (Except.ok (s.object k, []) : Except Err (Option Object × List Effect)) = .ok (o, es))
    (hnone : ReadsFirst known (f none))
    (hsome : ∀ o, ReadsFirst (fun j => known j ∨ j = k) (f (some o)))
    (hq : documentsRead q s = if (s.object k).isSome then [k] else []) :
    (∀ e ∈ es, ∀ j, document e = some j → known j ∨ j ∈ documentsRead q s) ∧
      ReadsFirst (fun j => known j ∨ j ∈ documentsRead q s) (f o) := by
  obtain ⟨rfl, rfl⟩ := Prod.mk.inj (Except.ok.inj h)
  refine ⟨by simp, ?_⟩
  cases ho : s.object k with
  | none => exact hnone.mono fun _ hj => .inl hj
  | some o =>
    apply (hsome o).mono
    intro j hj
    rw [hq, ho]
    simpa using hj

theorem getObject_readsFirst {k : Key} {f : Option Object → Tx α} (hnone : ReadsFirst known (f none))
    (hsome : ∀ o, ReadsFirst (fun j => known j ∨ j = k) (f (some o))) :
    ReadsFirst known (send (.getObject k) >>= f) :=
  fun _ _ _ hexec => object_of_read hexec hnone hsome rfl

theorem lockObject_readsFirst {k : Key} {f : Option Object → Tx α} (hnone : ReadsFirst known (f none))
    (hsome : ∀ o, ReadsFirst (fun j => known j ∨ j = k) (f (some o))) :
    ReadsFirst known (send (.lockObject k) >>= f) :=
  fun _ _ _ hexec => object_of_read hexec hnone hsome rfl

theorem lockPool_readsFirst {k : Key} {f : Option Object → Tx α} (hnone : ReadsFirst known (f none))
    (h : Emits postgres (Effect.On k) (send (.lockObject k) >>= f)) :
    ReadsFirst known (send (.lockObject k) >>= f) := by
  apply lockObject_readsFirst hnone
  intro o
  have hnext := (h { Db.empty with objects := [(k, o)] } (some o) [] (by simp [postgres, exec, Db.object])).2
  apply Informed.of_emits
  exact hnext.mono fun e he j hj => .inr (document_on he hj)

theorem updateObject_readsFirst {k : Key} (hk : known k) (o : Object) : ReadsFirst known (send (.updateObject k o)) := by
  apply Informed.of_emits
  apply Emits.call
  intro s r es hexec e he j hj
  obtain ⟨-, rfl⟩ := updateObject_ok hexec
  rw [List.mem_singleton.mp he] at hj
  exact Option.some.inj hj ▸ hk

theorem insertObject_readsFirst (k : Key) (o : Object) : ReadsFirst known (send (.insertObject k o)) := by
  intro s r es hexec
  obtain ⟨-, rfl⟩ := insertObject_ok hexec
  simp [document, documentsRead, Informed]

theorem deleteObject_readsFirst (k : Key) : ReadsFirst known (send (.deleteObject k)) := by
  intro s r es hexec
  obtain ⟨-, rfl⟩ := deleteObject_ok hexec
  simp [document, documentsRead, Informed]

theorem sendAll_readsFirst {β : Type} {f : β → Tx Unit} (hf : ∀ b, ReadsFirst known (f b)) (bs : List β) :
    ReadsFirst known (sendAll f bs) := by
  induction bs with
  | nil => trivial
  | cons b rest ih => exact (hf b).bind fun _ => ih

theorem ofOption_readsFirst {e : Err} (o : Option α) : ReadsFirst known (Prog.ofOption e o) :=
  readsFirst_of_plain (Emits.ofOption o)

theorem guaranteedUpdateOnce_readsFirst (key : Key) (zero : Option Object) (preconditions : Object → Bool)
    (tryUpdate : Object → Except Err Object) :
    ReadsFirst known (guaranteedUpdateOnce key zero preconditions tryUpdate) := by
  have htry : ∀ (known : Key → Prop) (o : Object),
      ReadsFirst known (Prog.ofExcept id (tryUpdate o) : Tx Object) :=
    fun _ o => readsFirst_of_plain (Emits.ofExcept _)
  apply lockObject_readsFirst
  · apply (ofOption_readsFirst zero).bind
    intro existing
    refine Informed.ite ?_ trivial
    exact (htry _ existing).bind fun ret => insertObject_readsFirst key ret
  · intro existing
    refine Informed.ite ?_ trivial
    apply (htry _ existing).bind
    exact fun ret => Informed.ite trivial (updateObject_readsFirst (.inr rfl) ret)

theorem publishReleasing_readsFirst (key : Key) : ReadsFirst known (publishReleasing key) := by
  have hread : publishReleasing key = (send (.getObject key) >>= fun o : Option Object =>
      Prog.ofOption .objectNotFound (o.bind ipClaimStrategy.decode) >>= fun claim =>
        send (.updateObject key (.claim { claim with phase := .releasing }))) := rfl
  rw [hread]
  apply getObject_readsFirst
  · trivial
  · intro o
    exact (ofOption_readsFirst _).bind fun claim => updateObject_readsFirst (.inr rfl) _

theorem deleteAllocations_readsFirst (cond : DeleteCond) : ReadsFirst known (deleteAllocations cond) := by
  have hdelete : ReadsFirst known (send (.deleteAllocations cond)) := by
    apply readsFirst_of_plain
    apply Emits.call
    intro s r es hexec e he
    obtain ⟨-, rfl⟩ := Prod.mk.inj (Except.ok.inj hexec)
    obtain ⟨row, -, rfl⟩ := List.mem_map.mp he
    rfl
  have hlower : ∀ old, ReadsFirst known (lowerSearchFloor old) := by
    intro old
    apply readsFirst_of_plain
    apply (lowerSearchFloor_emits old).mono
    rintro e ⟨digest, floor, rfl⟩
    rfl
  apply hdelete.bind
  intro released
  apply (sendAll_readsFirst hlower released).bind
  intro _
  apply sendAll_readsFirst
  exact fun old => lockPool_readsFirst (show ReadsFirst known (pure ()) from trivial) (publishRelease_emits old)

theorem release_readsFirst (claim : Key) : ReadsFirst known (release claim) := by
  have hretain : ReadsFirst known (send (.retainAllocations claim)) := by
    apply readsFirst_of_plain
    apply Emits.call
    intro s r es hexec e he
    obtain ⟨-, rfl⟩ := Prod.mk.inj (Except.ok.inj hexec)
    obtain ⟨key, -, rfl⟩ := List.mem_map.mp he
    rfl
  apply hretain.bind
  intro retained
  exact (deleteAllocations_readsFirst _).bind fun _ => trivial

theorem unbindAllocation_readsFirst (key : Key) : ReadsFirst known (unbindAllocation key) := by
  apply getObject_readsFirst
  · trivial
  · intro o
    exact (ofOption_readsFirst _).bind fun alloc => updateObject_readsFirst (.inr rfl) _

theorem releaseAndDelete_readsFirst (tenant namespace_ : String) (claim : IPClaim) (key : Key) :
    ReadsFirst known (releaseAndDelete tenant namespace_ claim key) := by
  have hdispose : ∀ (allocationKey : Key) (retained : List Key),
      ReadsFirst known (disposeAllocation allocationKey retained) :=
    fun allocationKey _ => Informed.ite (unbindAllocation_readsFirst allocationKey) (deleteObject_readsFirst allocationKey)
  apply (release_readsFirst key).bind
  intro retained
  cases claim.boundAllocationRef with
  | none => exact deleteObject_readsFirst key
  | some name =>
    apply Informed.ite
    · exact (hdispose _ retained).bind fun _ => deleteObject_readsFirst key
    · exact deleteObject_readsFirst key

theorem poolTxn_readsFirst {emptyDigest : String} {p : Tx Unit} (h : PoolTxn emptyDigest p) : ReadsFirst known p := by
  cases h with
  | allocatePrefix req => exact Informed.bind (lockPool_readsFirst trivial (allocatePrefix_emits _ req)) fun _ => trivial
  | carveFromPool pool n carve =>
    exact Informed.bind (lockPool_readsFirst trivial (carveFromPool_emits _ pool n carve)) fun _ => trivial
  | materialiseReservations pool =>
    exact Informed.bind (lockPool_readsFirst trivial (reservePool_emits _ pool)) fun _ => trivial
  | release claim => exact (release_readsFirst claim).bind fun _ => trivial
  | releaseAllocation key => exact deleteAllocations_readsFirst _
  | releasePoolReservations pool => exact deleteAllocations_readsFirst _
  | bindScopeRange pool claim =>
    have hbind : ReadsFirst known (bindScopeRange pool claim) :=
      readsFirst_of_plain ((bindScopeRange_emits pool claim).mono fun _ he => he ▸ rfl)
    exact hbind.bind fun _ => trivial

theorem ObjectTxn.readsFirst {emptyDigest : String} {p : Tx Unit} (h : ObjectTxn emptyDigest p) :
    ReadsFirst known p := by
  cases h with
  | guaranteedUpdate key zero preconditions tryUpdate => exact guaranteedUpdateOnce_readsFirst key zero _ _
  | publishReleasing key => exact publishReleasing_readsFirst key
  | releaseAndDelete tenant namespace_ claim key => exact releaseAndDelete_readsFirst tenant namespace_ claim key
  | capacity h => exact poolTxn_readsFirst h

end

theorem object_covered (q : Stmt) (s : Db) (r : Res q) (es : List Effect) (h : postgres.exec q s = .ok (r, es)) :
    ∀ e ∈ es, ∀ k, document e = some k → .object k ∈ postgres.locks q s := by
  intro e he k hk
  apply locks_cover q s r es h e he
  cases e with
  | putObject k' o =>
    obtain rfl := Option.some.inj hk
    simp [Effect.footprint]
  | removeObject k' =>
    obtain rfl := Option.some.inj hk
    simp [Effect.footprint]
  | _ => cases hk

/-- A transaction commits a write of an object only while no other open transaction has a copy of the object that it
read without locking it. -/
abbrev NoUnlockedCopy : World Stmt Res Err (Db × (Key → ℕ)) (Effect ⊕ Key × ℕ) Lock → Label Stmt Res Err → Prop :=
  CommitsUnread document Lock.object

theorem objectWrites_current (emptyDigest : String) (init : Db × (Key → ℕ))
    (w : World Stmt Res Err (Db × (Key → ℕ)) (Effect ⊕ Key × ℕ) Lock)
    (hw : Reachable versionedPostgres Lock.conflicts (ObjectTxn emptyDigest) NoUnlockedCopy init w) (t : ℕ)
    (log : List (Effect ⊕ Key × ℕ)) (held : List Lock) (ht : (t, ⟨.pure (), log, held⟩) ∈ w.txns) (k : Key) (o : Object)
    (hput : .inl (.putObject k o) ∈ log) : basis document k log = some (w.committed.2 k) := by
  have hwrites : writes document k log = true := List.any_eq_true.mpr ⟨_, hput, by simp [changes, document]⟩
  exact hw.basis_eq (by simp [Lock.conflicts]) object_covered (fun _ hp => ObjectTxn.readsFirst hp) ht hwrites

def webKey : Key := claimObjectKey "infra" "default" "web"

def webClaim : IPClaim :=
  ⟨"edge", some .v4, none, none, none, [], .block, none, .bound, none, none, none⟩

def webDb : Db :=
  { Db.empty with objects := [(webKey, .claim webClaim)] }

def retainTxn : Tx Unit :=
  guaranteedUpdateOnce webKey none (fun _ => true) fun
    | .claim c => .ok (.claim { c with reclaimPolicy := some .retain })
    | o => .ok o

def retainedWeb : Object := .claim { webClaim with reclaimPolicy := some .retain }

def releasingWeb : Effect ⊕ Key × ℕ := .inl (.putObject webKey (.claim { webClaim with phase := .releasing }))

def releasing (w : World Stmt Res Err (Db × (Key → ℕ)) (Effect ⊕ Key × ℕ) Lock)
    (f : List (Effect ⊕ Key × ℕ) → Bool) : Bool :=
  match w.find 1 with
  | some ⟨.pure _, log, _⟩ => log.any (fun e => decide (e = releasingWeb)) && f log
  | _ => false

theorem exists_of_releasing {w : World Stmt Res Err (Db × (Key → ℕ)) (Effect ⊕ Key × ℕ) Lock}
    {f : List (Effect ⊕ Key × ℕ) → Bool} (h : releasing w f = true) :
    ∃ log held, (1, ⟨.pure (), log, held⟩) ∈ w.txns ∧ releasingWeb ∈ log ∧ f log = true := by
  unfold releasing at h
  split at h
  · rename_i log held hfind
    rw [Bool.and_eq_true, List.any_eq_true] at h
    obtain ⟨⟨e, he, heq⟩, hf⟩ := h
    exact ⟨log, held, w.mem_of_find hfind, of_decide_eq_true heq ▸ he, hf⟩
  · cases h

theorem objectWrites_current_web :
    ∃ (w : World Stmt Res Err (Db × (Key → ℕ)) (Effect ⊕ Key × ℕ) Lock) (log : List (Effect ⊕ Key × ℕ))
      (held : List Lock), (1, ⟨.pure (), log, held⟩) ∈ w.txns ∧ releasingWeb ∈ log ∧
        basis document webKey log = some (w.committed.2 webKey) := by
  have hreach : ∃ w, Reachable versionedPostgres Lock.conflicts (ObjectTxn "none") NoUnlockedCopy (webDb, fun _ => 0) w ∧
      releasing w (fun _ => true) = true := by
    apply Reachable.exists_world_of_steps
      [.start 1 (publishReleasing webKey), .start 2 retainTxn, .exec 1, .exec 1]
    · simp [NoUnlockedCopy, CommitsUnread]
    · intro t p hp
      simp only [List.mem_cons, Label.start.injEq, reduceCtorEq, List.not_mem_nil, or_false] at hp
      rcases hp with ⟨-, rfl⟩ | ⟨-, rfl⟩
      · exact .publishReleasing _
      · exact .guaranteedUpdate _ _ _ _
    · decide +kernel
  obtain ⟨w, hw, hreleasing⟩ := hreach
  obtain ⟨log, held, hmem, hput, -⟩ := exists_of_releasing hreleasing
  exact ⟨w, log, held, hmem, hput, objectWrites_current "none" _ w hw 1 log held hmem webKey _ hput⟩

/-- The deletion reads the claim, the operator's update commits, and the deletion writes back what it read. -/
theorem objectWrites_stale :
    ∃ (w : World Stmt Res Err (Db × (Key → ℕ)) (Effect ⊕ Key × ℕ) Lock) (log : List (Effect ⊕ Key × ℕ))
      (held : List Lock),
      Reachable versionedPostgres Lock.conflicts (ObjectTxn "none") (fun _ _ => True) (webDb, fun _ => 0) w ∧
        (1, ⟨.pure (), log, held⟩) ∈ w.txns ∧ releasingWeb ∈ log ∧
        w.committed.1.object webKey = some retainedWeb ∧
        basis document webKey log ≠ some (w.committed.2 webKey) := by
  have hreach : ∃ w, Reachable versionedPostgres Lock.conflicts (ObjectTxn "none") (fun _ _ => True)
      (webDb, fun _ => 0) w ∧
      releasing w (fun log => decide (w.committed.1.object webKey = some retainedWeb ∧
        basis document webKey log ≠ some (w.committed.2 webKey))) = true := by
    apply Reachable.exists_world_of_steps
      [.start 1 (publishReleasing webKey), .exec 1, .start 2 retainTxn, .exec 2, .exec 2, .commit 2, .exec 1]
    · exact fun _ _ _ => trivial
    · intro t p hp
      simp only [List.mem_cons, Label.start.injEq, reduceCtorEq, List.not_mem_nil, or_false, false_or] at hp
      rcases hp with ⟨-, rfl⟩ | ⟨-, rfl⟩
      · exact .publishReleasing _
      · exact .guaranteedUpdate _ _ _ _
    · decide +kernel
  obtain ⟨w, hw, hreleasing⟩ := hreach
  obtain ⟨log, held, hmem, hput, hstale⟩ := exists_of_releasing hreleasing
  exact ⟨w, log, held, hw, hmem, hput, of_decide_eq_true hstale⟩

end Ipam.Registry
