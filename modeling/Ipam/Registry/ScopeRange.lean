import Ipam.Allocator.PoolTransactions
import Ipam.Allocator.ReleaseLedger
import Ipam.Registry.Claims

namespace Ipam.Registry

open Allocation Allocator Cascade Database Transaction

def Carves (rows : List Row) (source pool : Key) : Prop :=
  ∃ r ∈ rows, r.poolKey = source ∧ r.purpose = .poolCarve ∧ r.allocationKey = pool

abbrev InTree (rows : List Row) : Key → Key → Prop :=
  Relation.ReflTransGen (Carves rows)

def Within (rows : List Row) : ℕ → Key → Prop
  | 0, _ => False
  | levels + 1, source => ∀ r ∈ rows, r.poolKey = source → r.purpose = .poolCarve → Within rows levels r.allocationKey

instance decidableWithin (rows : List Row) : (levels : ℕ) → (source : Key) → Decidable (Within rows levels source)
  | 0, _ => isFalse id
  | levels + 1, source =>
    have (k : Key) : Decidable (Within rows levels k) := decidableWithin rows levels k
    inferInstanceAs (Decidable (∀ r ∈ rows, r.poolKey = source → r.purpose = .poolCarve →
      Within rows levels r.allocationKey))

def Row.derived (r : Row) : Prop :=
  r.purpose = .poolCarve ∧ r.claimKey = some r.allocationKey

def Db.books (k : Key) (s : Db) : Option Object × List (String × IP) × Option ℕ :=
  (s.object k, s.poolFloors k, s.consumed k)

def Ledger.clear (L : Ledger) (tree roots : List Key) : Ledger where
  objects k := if k ∈ tree then none else L.objects k
  rows := L.rows.filter fun r => r.poolKey ∉ tree ∧ r.allocationKey ∉ roots
  identities := L.identities.filter fun i => i.poolKey ∉ tree

theorem InTree.mono {rows rows' : List Row} (h : ∀ r ∈ rows, r ∈ rows') {k x : Key} (hx : InTree rows k x) :
    InTree rows' k x :=
  Relation.ReflTransGen.mono (fun _ _ ⟨r, hr, hlink⟩ => ⟨r, h r hr, hlink⟩) _ _ hx

theorem Within.mono {rows rows' : List Row} (h : ∀ r ∈ rows, r ∈ rows') {levels : ℕ} {k : Key}
    (hk : Within rows' levels k) : Within rows levels k := by
  induction levels generalizing k with
  | zero => exact hk
  | succ levels ih =>
    intro r hr hkey hpurpose
    exact ih (hk r (h r hr) hkey hpurpose)

section

variable {x : Key}

theorem books_of_on {k : Key} (hne : x ≠ k) {e : Effect} (he : Effect.On k e) (s : Db) :
    Db.books x (Effect.apply e s) = Db.books x s := by
  have hstate : (Effect.apply e s).poolState x = s.poolState x := by
    rw [poolState_apply]
    exact he.off (Ne.symm hne) _
  have hfloors : (Effect.apply e s).poolFloors x = s.poolFloors x := congrArg PoolState.floors hstate
  have hconsumed : (Effect.apply e s).consumed x = s.consumed x := congrArg PoolState.consumed hstate
  have hobject : (Effect.apply e s).object x = s.object x := by
    cases e with
    | putObject k' o =>
      obtain ⟨rfl, -⟩ := he
      rw [object_putObject, if_neg hne]
    | removeObject k' => exact he.elim
    | _ => rfl
  simp only [Db.books, hobject, hfloors, hconsumed]

theorem books_deleteRows (gone : List Row) (s : Db) :
    Db.books x (postgres.view (gone.map fun r => Effect.deleteRow r.poolKey r.allocationKey) s) = Db.books x s := by
  induction gone generalizing s with
  | nil => rfl
  | cons o gone ih => exact (ih (Effect.apply (.deleteRow o.poolKey o.allocationKey) s)).trans rfl

theorem books_of_emits {α : Type} {s : Db} {k : Key} (hne : k ≠ x) {prog : Tx α}
    (h : Emits postgres (Effect.On k) prog) : postgres.After s prog fun _ s' => Db.books x s' = Db.books x s :=
  Database.After.keeps (Keeps.of_emits h fun _ he s => books_of_on hne.symm he s)

theorem Effect.SetsFloor.on {k : Key} {e : Effect} (h : Effect.SetsFloor k e) : Effect.On k e := by
  obtain ⟨digest, floor, rfl⟩ := h
  exact rfl

theorem deleteAllocations_books {s : Db} (cond : DeleteCond) (hx : ∀ r ∈ cond.select s.rows, r.poolKey ≠ x) :
    postgres.After s (deleteAllocations cond) fun _ s' => Db.books x s' = Db.books x s := by
  apply Database.After.step
  intro released es hexec
  obtain ⟨rfl, rfl⟩ := Prod.mk.inj (Except.ok.inj hexec)
  rw [← books_deleteRows (cond.select s.rows) s]
  change postgres.After _ (sendAll lowerSearchFloor (cond.select s.rows) >>= fun _ =>
    sendAll publishRelease (cond.select s.rows)) _
  apply Database.After.bind
  have hlower : ∀ old ∈ cond.select s.rows, ∀ s, postgres.After s (lowerSearchFloor old)
      fun _ s' => Db.books x s' = Db.books x s :=
    fun old hold _ => books_of_emits (hx old hold) ((lowerSearchFloor_emits old).mono fun _ => Effect.SetsFloor.on)
  have hpublish : ∀ old ∈ cond.select s.rows, ∀ s, postgres.After s (publishRelease old)
      fun _ s' => Db.books x s' = Db.books x s :=
    fun old hold _ => books_of_emits (hx old hold) (publishRelease_emits old)
  refine (sendAll_keeps hlower).mono ?_
  intro _ s₁ h₁
  exact (sendAll_keeps hpublish).mono fun _ s₂ h₂ => h₂.trans h₁

theorem books_removeObject (k : Key) (s : Db) :
    Db.books x (Effect.apply (.removeObject k) s) = if k = x then (none, [], none) else Db.books x s := by
  have hfloors : (Effect.apply (.removeObject k) s).poolFloors x = if k = x then [] else s.poolFloors x := by
    simp only [Db.poolFloors, Effect.apply, List.filter_filter]
    split
    · rename_i hk
      subst hk
      simp
    · rename_i hk
      congr 1
      apply List.filter_congr
      intro f _
      by_cases hf : f.poolKey = x
      · simp [hf, Ne.symm hk]
      · simp [hf]
  have hconsumed : (Effect.apply (.removeObject k) s).consumed x = if k = x then none else s.consumed x :=
    lookup_remove x k s.consumption
  simp only [Db.books, object_removeObject, hfloors, hconsumed]
  split <;> rfl

end

structure Cleared (s : Db) (roots : List Key) (s' : Db) (tree : List Key) : Prop where
  covers : ∀ k ∈ roots, k ∈ tree
  sound : ∀ x ∈ tree, ∃ k ∈ roots, InTree s.rows k x
  closed : ∀ r ∈ s.rows, r.poolKey ∈ tree → r.purpose = .reservation ∨ Row.derived r ∧ r.allocationKey ∈ tree
  ledger : s'.ledger = Ledger.clear s.ledger tree roots
  gone : ∀ x ∈ tree, Db.books x s' = (none, [], none)
  aside : ∀ x ∉ tree, (∀ r ∈ s.rows, r.allocationKey ∈ roots → r.poolKey ≠ x) → Db.books x s' = Db.books x s

namespace Cleared

variable {s s₁ s' : Db} {roots tree : List Key}

theorem mem_rows (h : Cleared s roots s' tree) (r : Row) :
    r ∈ s'.rows ↔ r ∈ s.rows ∧ r.poolKey ∉ tree ∧ r.allocationKey ∉ roots := by
  have hrows : s'.rows = (Ledger.clear s.ledger tree roots).rows := congrArg Ledger.rows h.ledger
  rw [hrows, Ledger.clear, List.mem_filter]
  simp only [decide_eq_true_eq]
  rfl

theorem nil (s : Db) : Cleared s [] s [] := by
  refine ⟨by simp, by simp, by simp, ?_, by simp, fun _ _ _ => rfl⟩
  simp [Ledger.clear, Db.ledger]

theorem cons {k : Key} {ks tree₁ tree₂ : List Key} (h₁ : Cleared s [k] s₁ tree₁) (h₂ : Cleared s₁ ks s' tree₂)
    (hself : ∀ r ∈ s.rows, r.allocationKey = k → Row.derived r) : Cleared s (k :: ks) s' (tree₁ ++ tree₂) := by
  have hsub : ∀ r ∈ s₁.rows, r ∈ s.rows := fun r hr => ((h₁.mem_rows r).mp hr).1
  refine ⟨?_, ?_, ?_, ?_, ?_, ?_⟩
  · intro x hx
    rcases List.mem_cons.mp hx with rfl | hx
    · exact List.mem_append_left _ (h₁.covers x List.mem_cons_self)
    · exact List.mem_append_right _ (h₂.covers x hx)
  · intro x hx
    rcases List.mem_append.mp hx with hx | hx
    · obtain ⟨k', hk', hpath⟩ := h₁.sound x hx
      exact ⟨k', by simpa using Or.inl (List.mem_singleton.mp hk'), hpath⟩
    · obtain ⟨k', hk', hpath⟩ := h₂.sound x hx
      exact ⟨k', List.mem_cons_of_mem _ hk', InTree.mono hsub hpath⟩
  · intro r hr hx
    by_cases h : r.poolKey ∈ tree₁
    · rcases h₁.closed r hr h with hres | ⟨hder, hmem⟩
      · exact Or.inl hres
      · exact Or.inr ⟨hder, List.mem_append_left _ hmem⟩
    · by_cases hk : r.allocationKey = k
      · refine Or.inr ⟨hself r hr hk, List.mem_append_left _ ?_⟩
        exact hk ▸ h₁.covers k List.mem_cons_self
      · have hr₁ : r ∈ s₁.rows := (h₁.mem_rows r).mpr ⟨hr, h, by simpa using hk⟩
        have hx₂ : r.poolKey ∈ tree₂ := (List.mem_append.mp hx).resolve_left h
        rcases h₂.closed r hr₁ hx₂ with hres | ⟨hder, hmem⟩
        · exact Or.inl hres
        · exact Or.inr ⟨hder, List.mem_append_right _ hmem⟩
  · rw [h₂.ledger, h₁.ledger]
    simp only [Ledger.clear, List.filter_filter, Ledger.mk.injEq]
    refine ⟨?_, ?_, ?_⟩
    · funext x
      by_cases hx₁ : x ∈ tree₁ <;> by_cases hx₂ : x ∈ tree₂ <;> simp [hx₁, hx₂]
    · apply List.filter_congr
      intro r _
      rw [Bool.eq_iff_iff]
      simp
      tauto
    · apply List.filter_congr
      intro r _
      rw [Bool.eq_iff_iff]
      simp
      tauto
  · intro x hx
    by_cases hx₂ : x ∈ tree₂
    · exact h₂.gone x hx₂
    · have hx₁ : x ∈ tree₁ := (List.mem_append.mp hx).resolve_right hx₂
      rw [h₂.aside x hx₂, h₁.gone x hx₁]
      rintro r hr - rfl
      exact ((h₁.mem_rows r).mp hr).2.1 hx₁
  · intro x hx hfree
    have hx₁ : x ∉ tree₁ := fun h => hx (List.mem_append_left _ h)
    have hx₂ : x ∉ tree₂ := fun h => hx (List.mem_append_right _ h)
    rw [h₂.aside x hx₂, h₁.aside x hx₁]
    · intro r hr hk
      exact hfree r hr (by simpa using Or.inl (List.mem_singleton.mp hk))
    · intro r hr hk
      exact hfree r (hsub r hr) (List.mem_cons_of_mem _ hk)

theorem up {k : Key} {children : List Row} {s₂ s₃ : Db} (hkeyed : Keyed s.rows)
    (hchildren : ∀ r, r ∈ children ↔ r ∈ s.rows ∧ r.poolKey = k ∧ r.purpose ≠ .reservation)
    (hderived : ∀ r ∈ children, Row.derived r) (h₁ : Cleared s (children.map Row.allocationKey) s₁ tree)
    (h₂ : s₂.ledger = s₁.ledger.drop (DeleteCond.matches (.reservationsOf k)))
    (hbooks₂ : ∀ x, x ≠ k → Db.books x s₂ = Db.books x s₁)
    (h₃ : s₃.ledger = s₂.ledger.drop (DeleteCond.matches (.allocationKey k)))
    (hbooks₃ : ∀ x, (∀ r ∈ s₂.rows, r.allocationKey = k → r.poolKey ≠ x) → Db.books x s₃ = Db.books x s₂) :
    Cleared s [k] (Effect.apply (.removeObject k) s₃) (k :: tree) := by
  have hrows₂ : ∀ r ∈ s₂.rows, r ∈ s₁.rows := by
    intro r hr
    have hmem : r ∈ s₂.ledger.rows := hr
    rw [h₂] at hmem
    exact (List.mem_filter.mp hmem).1
  have hchild : ∀ r ∈ s.rows, r.allocationKey ∈ children.map Row.allocationKey → r.poolKey = k := by
    intro r hr hmem
    obtain ⟨o, ho, heq⟩ := List.mem_map.mp hmem
    obtain ⟨homem, hok, -⟩ := (hchildren o).mp ho
    rwa [← hkeyed.eq_of_allocationKey homem hr heq]
  refine ⟨by simp, ?_, ?_, ?_, ?_, ?_⟩
  · intro x hx
    refine ⟨k, List.mem_singleton_self _, ?_⟩
    rcases List.mem_cons.mp hx with rfl | hx
    · exact .refl
    · obtain ⟨c, hc, hpath⟩ := h₁.sound x hx
      obtain ⟨r, hr, rfl⟩ := List.mem_map.mp hc
      obtain ⟨hrmem, hrk, -⟩ := (hchildren r).mp hr
      exact .head ⟨r, hrmem, hrk, (hderived r hr).1, rfl⟩ hpath
  · intro r hr hx
    by_cases hres : r.purpose = .reservation
    · exact Or.inl hres
    · right
      rcases List.mem_cons.mp hx with hk | hx
      · have hrc := (hchildren r).mpr ⟨hr, hk, hres⟩
        exact ⟨hderived r hrc, List.mem_cons_of_mem _ (h₁.covers _ (List.mem_map_of_mem hrc))⟩
      · obtain ⟨hder, hmem⟩ := (h₁.closed r hr hx).resolve_left hres
        exact ⟨hder, List.mem_cons_of_mem _ hmem⟩
  · rw [ledger_apply, h₃, h₂, h₁.ledger]
    simp only [Ledger.apply, Ledger.remove, Ledger.drop, Ledger.clear, List.filter_filter, Ledger.mk.injEq]
    refine ⟨?_, ?_, ?_⟩
    · funext x
      by_cases hx : x = k
      · simp [hx]
      · simp [hx]
    · apply List.filter_congr
      intro r hr
      have hr' : r ∈ s.rows := hr
      rw [Bool.eq_iff_iff]
      simp only [DeleteCond.matches, List.mem_cons, Bool.and_eq_true, Bool.not_eq_true', decide_eq_true_eq,
        decide_eq_false_iff_not, Bool.and_eq_false_iff, List.not_mem_nil, or_false]
      constructor
      · rintro ⟨hne, hres, hpool, hkeep⟩
        refine ⟨?_, hne⟩
        rintro (hk | hmem)
        · have hnot : r.purpose ≠ .reservation := hres.resolve_left (by simp [hk])
          exact hkeep (List.mem_map_of_mem ((hchildren r).mpr ⟨hr', hk, hnot⟩))
        · exact hpool hmem
      · rintro ⟨hpool, hne⟩
        exact ⟨hne, Or.inl fun hk => hpool (Or.inl hk), fun hmem => hpool (Or.inr hmem),
          fun hmem => hpool (Or.inl (hchild r hr' hmem))⟩
    · apply List.filter_congr
      intro i _
      rw [Bool.eq_iff_iff]
      simp
  · intro x hx
    rw [books_removeObject]
    split
    · rfl
    rename_i hne
    have hx' : x ∈ tree := (List.mem_cons.mp hx).resolve_left (Ne.symm hne)
    rw [hbooks₃, hbooks₂ x (Ne.symm hne), h₁.gone x hx']
    rintro r hr - rfl
    exact ((h₁.mem_rows r).mp (hrows₂ r hr)).2.1 hx'
  · intro x hx hfree
    have hne : k ≠ x := fun h => hx (h ▸ List.mem_cons_self)
    rw [books_removeObject, if_neg hne, hbooks₃, hbooks₂ x hne.symm, h₁.aside x fun h => hx (List.mem_cons_of_mem _ h)]
    · intro r hr hmem heq
      exact hne ((hchild r hr hmem).symm.trans heq)
    · intro r hr hk
      exact hfree r ((h₁.mem_rows r).mp (hrows₂ r hr)).1 (by simp [hk])

end Cleared

section

variable {s : Db}

theorem Cleared.keyed {roots tree : List Key} {s' : Db} (h : Cleared s roots s' tree) (hkeyed : Keyed s.rows) :
    Keyed s'.rows := by
  have hrows : s'.rows = (Ledger.clear s.ledger tree roots).rows := congrArg Ledger.rows h.ledger
  rw [hrows]
  exact hkeyed.filter _

theorem releaseEach_after {f : Key → Tx Unit}
    (hf : ∀ k s, Keyed s.rows → postgres.After s (f k) fun _ s' => ∃ tree, Cleared s [k] s' tree) (keys : List Key)
    (hkeyed : Keyed s.rows) (hself : ∀ r ∈ s.rows, r.allocationKey ∈ keys → Row.derived r) :
    postgres.After s (sendAll f keys) fun _ s' => ∃ tree, Cleared s keys s' tree := by
  induction keys generalizing s with
  | nil => exact .pure ⟨[], .nil s⟩
  | cons k keys ih =>
    apply Database.After.bind
    refine (hf k s hkeyed).mono ?_
    rintro _ s₁ ⟨tree₁, h₁⟩
    refine (ih (h₁.keyed hkeyed) ?_).mono ?_
    · intro r hr hmem
      exact hself r ((h₁.mem_rows r).mp hr).1 (List.mem_cons_of_mem _ hmem)
    · rintro _ s' ⟨tree₂, h₂⟩
      exact ⟨_, h₁.cons h₂ fun r hr hk => hself r hr (hk ▸ List.mem_cons_self)⟩

def occupantsOf (rows : List Row) (k : Key) : List Row :=
  rows.filter fun r => r.poolKey = k && r.purpose ≠ .reservation

theorem mem_occupantsOf (rows : List Row) (k : Key) (r : Row) :
    r ∈ occupantsOf rows k ↔ r ∈ rows ∧ r.poolKey = k ∧ r.purpose ≠ .reservation := by
  simp [occupantsOf]

def releaseRange (release : Key → Tx Unit) (k : Key) (children : List Row) : Tx Unit := do
  sendAll release (children.map Row.allocationKey)
  releasePoolReservations k
  releaseAllocation k
  send (.deleteObject k)

theorem derived_children {k : Key} (hkeyed : Keyed s.rows) (h : ∀ r ∈ occupantsOf s.rows k, Row.derived r) :
    ∀ r ∈ s.rows, r.allocationKey ∈ (occupantsOf s.rows k).map Row.allocationKey → Row.derived r := by
  intro r hr hmem
  obtain ⟨o, ho, heq⟩ := List.mem_map.mp hmem
  rw [← hkeyed.eq_of_allocationKey ((mem_occupantsOf _ _ _).mp ho).1 hr heq]
  exact h o ho

theorem releaseRange_after {f : Key → Tx Unit} {k : Key}
    (hf : ∀ k s, Keyed s.rows → postgres.After s (f k) fun _ s' => ∃ tree, Cleared s [k] s' tree)
    (hkeyed : Keyed s.rows) (hderived : ∀ r ∈ occupantsOf s.rows k, Row.derived r) :
    postgres.After s (releaseRange f k (occupantsOf s.rows k)) fun _ s' => ∃ tree, Cleared s [k] s' tree := by
  apply Database.After.bind
  refine (releaseEach_after hf _ hkeyed (derived_children hkeyed hderived)).mono ?_
  rintro _ s₁ ⟨tree, h₁⟩
  have hkeyed₁ := h₁.keyed hkeyed
  have hreserved : postgres.After s₁ (releasePoolReservations k) fun _ s₂ =>
      s₂.ledger = s₁.ledger.drop (DeleteCond.matches (.reservationsOf k)) ∧
        ∀ x, x ≠ k → Db.books x s₂ = Db.books x s₁ := by
    refine (deleteAllocations_after hkeyed₁ (.reservationsOf k)).and ?_
    intro a s₂ hrun x hne
    refine deleteAllocations_books (.reservationsOf k) ?_ a s₂ hrun
    intro r hr
    have hk := (List.mem_filter.mp hr).2
    simp only [Bool.and_eq_true, decide_eq_true_eq] at hk
    exact fun h => hne (h.symm.trans hk.1)
  apply Database.After.bind
  refine hreserved.mono ?_
  rintro _ s₂ ⟨h₂, hbooks₂⟩
  have hkeyed₂ : Keyed s₂.rows := by
    have hrows : s₂.rows = (s₁.ledger.drop (DeleteCond.matches (.reservationsOf k))).rows := congrArg Ledger.rows h₂
    rw [hrows]
    exact hkeyed₁.filter _
  have hcarve : postgres.After s₂ (releaseAllocation k) fun _ s₃ =>
      s₃.ledger = s₂.ledger.drop (DeleteCond.matches (.allocationKey k)) ∧
        ∀ x, (∀ r ∈ s₂.rows, r.allocationKey = k → r.poolKey ≠ x) → Db.books x s₃ = Db.books x s₂ := by
    refine (deleteAllocations_after hkeyed₂ (.allocationKey k)).and ?_
    intro a s₃ hrun x hfree
    refine deleteAllocations_books (.allocationKey k) ?_ a s₃ hrun
    intro r hr
    obtain ⟨hmem, hmatch⟩ := (mem_select hkeyed₂ (.allocationKey k) r).mp hr
    exact hfree r hmem (of_decide_eq_true hmatch)
  apply Database.After.bind
  refine hcarve.mono ?_
  rintro _ s₃ ⟨h₃, hbooks₃⟩
  apply Database.After.call
  intro _ es hexec
  obtain ⟨-, rfl⟩ := deleteObject_ok hexec
  exact ⟨_, h₁.up hkeyed (mem_occupantsOf s.rows k) hderived h₂ hbooks₂ h₃ hbooks₃⟩

theorem releaseRangeTree_succ (levels : ℕ) (k : Key) :
    releaseRangeTree (levels + 1) k = Prog.step (Stmt.occupants k) fun (rows : List Row) =>
      if rows.all fun r => r.purpose = .poolCarve && r.claimKey = some r.allocationKey then
        releaseRange (releaseRangeTree levels) k rows
      else .throw .scopeRangeOccupied := rfl

theorem all_derived {rows : List Row} :
    (rows.all fun r => r.purpose = .poolCarve && r.claimKey = some r.allocationKey) = true ↔
      ∀ r ∈ rows, Row.derived r := by
  simp [Row.derived]

theorem releaseRangeTree_after (levels : ℕ) (k : Key) (hkeyed : Keyed s.rows) :
    postgres.After s (releaseRangeTree levels k) fun _ s' => ∃ tree, Cleared s [k] s' tree := by
  induction levels generalizing s k with
  | zero => exact .throw
  | succ levels ih =>
    rw [releaseRangeTree_succ]
    apply Database.After.step
    intro rows es hexec
    obtain ⟨rfl, rfl⟩ := Prod.mk.inj (Except.ok.inj hexec)
    split
    · rename_i hall
      exact releaseRange_after (fun k s hkeyed => ih k hkeyed) hkeyed (all_derived.mp hall)
    · exact .throw

/-- Nothing in the tree of carves is held: every row is a reservation or a carve that no claim holds. -/
def Vacant (rows : List Row) (k : Key) : Prop :=
  ∀ r ∈ rows, InTree rows k r.poolKey → r.purpose = .reservation ∨ Row.derived r

theorem Vacant.child {rows rows' : List Row} (hsub : ∀ r ∈ rows', r ∈ rows) {k : Key} (h : Vacant rows k) {r : Row}
    (hr : r ∈ occupantsOf rows k) : Vacant rows' r.allocationKey := by
  obtain ⟨hmem, hk, hres⟩ := (mem_occupantsOf _ _ _).mp hr
  have hder := (h r hmem (hk ▸ .refl)).resolve_left hres
  intro o ho hpath
  exact h o (hsub o ho) (.head ⟨r, hmem, hk, hder.1, rfl⟩ (InTree.mono hsub hpath))

theorem Cleared.mem_tree {k : Key} {tree : List Key} {s' : Db} (h : Cleared s [k] s' tree) (x : Key) :
    x ∈ tree ↔ InTree s.rows k x := by
  constructor
  · intro hx
    obtain ⟨k', hk', hpath⟩ := h.sound x hx
    rwa [List.mem_singleton.mp hk'] at hpath
  · intro hx
    induction hx with
    | refl => exact h.covers k (List.mem_singleton_self k)
    | tail _ hlast ih =>
      obtain ⟨r, hr, rfl, hpurpose, rfl⟩ := hlast
      rcases h.closed r hr ih with hres | ⟨-, hin⟩
      · rw [hpurpose] at hres
        cases hres
      · exact hin

theorem Cleared.vacant {k : Key} {tree : List Key} {s' : Db} (h : Cleared s [k] s' tree) : Vacant s.rows k := by
  intro r hr hpath
  rcases h.closed r hr ((h.mem_tree _).mpr hpath) with hres | ⟨hder, -⟩
  · exact Or.inl hres
  · exact Or.inr hder

theorem Cleared.consistent {roots tree : List Key} {s' : Db} (h : Cleared s roots s' tree)
    (hs : Consistent s.ledger) : Consistent s'.ledger := by
  rw [h.ledger]
  refine ⟨hs.keyed.filter _, ?_, ?_⟩
  · intro r hr
    obtain ⟨hmem, hkeep⟩ := List.mem_filter.mp hr
    obtain ⟨pool, range, hstored, hrange⟩ := hs.pools r hmem
    refine ⟨pool, range, ?_, hrange⟩
    simp only [decide_eq_true_eq] at hkeep
    simp only [Ledger.clear, if_neg hkeep.1, hstored]
  · intro i hi
    obtain ⟨hmem, hkeep⟩ := List.mem_filter.mp hi
    obtain ⟨pool, hstored⟩ := hs.identities i hmem
    refine ⟨pool, ?_⟩
    simp only [decide_eq_true_eq] at hkeep
    simp only [Ledger.clear, if_neg hkeep, hstored]

theorem releaseEach_succeeds {f : Key → Tx Unit} {keys : List Key} (good : List Row → Key → Prop)
    (hf : ∀ k s, Keyed s.rows → postgres.After s (f k) fun _ s' => ∃ tree, Cleared s [k] s' tree)
    (hok : ∀ k s, Consistent s.ledger → good s.rows k → postgres.Succeeds s (f k)) (hs : Consistent s.ledger)
    (hgood : ∀ rows', (∀ r ∈ rows', r ∈ s.rows) → ∀ k ∈ keys, good rows' k) :
    postgres.Succeeds s (sendAll f keys) := by
  induction keys generalizing s with
  | nil => exact .pure _
  | cons k keys ih =>
    refine Database.Succeeds.bind (hok k s hs (hgood s.rows (fun _ hr => hr) k List.mem_cons_self)) ?_
    refine (hf k s hs.keyed).mono ?_
    rintro _ s₁ ⟨tree, h₁⟩
    refine ih (h₁.consistent hs) ?_
    intro rows' hsub k' hk'
    refine hgood rows' ?_ k' (List.mem_cons_of_mem _ hk')
    exact fun r hr => ((h₁.mem_rows r).mp (hsub r hr)).1

theorem releaseRange_succeeds {f : Key → Tx Unit} {k : Key}
    (hf : ∀ k s, Keyed s.rows → postgres.After s (f k) fun _ s' => ∃ tree, Cleared s [k] s' tree)
    (hs : Consistent s.ledger) (hderived : ∀ r ∈ occupantsOf s.rows k, Row.derived r)
    (hok : postgres.Succeeds s (sendAll f ((occupantsOf s.rows k).map Row.allocationKey))) :
    postgres.Succeeds s (releaseRange f k (occupantsOf s.rows k)) := by
  refine Database.Succeeds.bind hok ?_
  refine (releaseEach_after hf _ hs.keyed (derived_children hs.keyed hderived)).mono ?_
  rintro _ s₁ ⟨tree, h₁⟩
  have hs₁ := h₁.consistent hs
  refine Database.Succeeds.bind (deleteAllocations_succeeds hs₁ (.reservationsOf k)) ?_
  refine (deleteAllocations_after hs₁.keyed (.reservationsOf k)).mono ?_
  intro _ s₂ h₂
  have hs₂ : Consistent s₂.ledger := h₂ ▸ hs₁.drop _
  refine Database.Succeeds.bind (deleteAllocations_succeeds hs₂ (.allocationKey k)) ?_
  refine (deleteAllocations_after hs₂.keyed (.allocationKey k)).mono ?_
  intro _ s₃ h₃
  -- the reservations are gone, and so is the carve of every child
  refine deleteObject_succeeds fun r hr hpool => ?_
  have hr₃ : r ∈ s₃.ledger.rows := hr
  rw [h₃, h₂] at hr₃
  obtain ⟨hr₂, -⟩ := List.mem_filter.mp hr₃
  obtain ⟨hr₁, hkeep⟩ := List.mem_filter.mp hr₂
  obtain ⟨hmem, -, hroot⟩ := (h₁.mem_rows r).mp hr₁
  have hres : r.purpose ≠ .reservation := by
    intro hres
    simp [DeleteCond.matches, hpool, hres] at hkeep
  exact hroot (List.mem_map_of_mem ((mem_occupantsOf _ _ _).mpr ⟨hmem, hpool, hres⟩))

theorem releaseRangeTree_succeeds (levels : ℕ) (k : Key) (hs : Consistent s.ledger) (hdepth : Within s.rows levels k)
    (hvacant : Vacant s.rows k) : postgres.Succeeds s (releaseRangeTree levels k) := by
  induction levels generalizing s k with
  | zero => exact hdepth.elim
  | succ levels ih =>
    have hderived : ∀ r ∈ occupantsOf s.rows k, Row.derived r := by
      intro r hr
      obtain ⟨hmem, hk, hres⟩ := (mem_occupantsOf _ _ _).mp hr
      exact (hvacant r hmem (hk ▸ .refl)).resolve_left hres
    rw [releaseRangeTree_succ]
    refine .read rfl ?_
    change postgres.Succeeds s (if (occupantsOf s.rows k).all
      (fun r => r.purpose = .poolCarve && r.claimKey = some r.allocationKey) then
        releaseRange (releaseRangeTree levels) k (occupantsOf s.rows k) else .throw .scopeRangeOccupied)
    rw [if_pos (all_derived.mpr hderived)]
    have hafter : ∀ k s, Keyed s.rows → postgres.After s (releaseRangeTree levels k)
        fun _ s' => ∃ tree, Cleared s [k] s' tree := fun k s hkeyed => releaseRangeTree_after levels k hkeyed
    have hchildren : postgres.Succeeds s
        (sendAll (releaseRangeTree levels) ((occupantsOf s.rows k).map Row.allocationKey)) := by
      refine releaseEach_succeeds (fun rows k => Within rows levels k ∧ Vacant rows k) hafter
        (fun k s hs hk => ih k hs hk.1 hk.2) hs ?_
      intro rows' hsub c hc
      obtain ⟨r, hr, rfl⟩ := List.mem_map.mp hc
      obtain ⟨hmem, hk, -⟩ := (mem_occupantsOf _ _ _).mp hr
      exact ⟨Within.mono hsub (hdepth r hmem hk (hderived r hr).1), hvacant.child hsub hr⟩
    exact releaseRange_succeeds hafter hs hderived hchildren

structure RangeReleased (s : Db) (claimKey k source : Key) (s' : Db) (tree : List Key) : Prop where
  mem_tree : ∀ x, x ∈ tree ↔ InTree s.rows k x
  rows : s'.rows = s.rows.filter fun r => r.poolKey ∉ tree ∧ r.allocationKey ≠ k
  identities : s'.identities = s.identities.filter fun i => i.poolKey ∉ tree
  gone : ∀ x, x ∈ tree ∨ x = claimKey → Db.books x s' = (none, [], none)
  kept : source ∉ tree → (s'.object source).map Object.core = (s.object source).map Object.core
  aside : ∀ x, x ∉ tree → x ≠ claimKey → x ≠ source → Db.books x s' = Db.books x s

theorem findScopeRange_eq {claimKey : Key} {carve : Row} (hkeyed : Keyed s.rows) (hcarve : carve ∈ s.rows)
    (hheld : carve.claimKey = some claimKey) (hpurpose : carve.purpose = .poolCarve) :
    exec (.findScopeRange claimKey) s = .ok (some carve.allocationKey, []) := by
  have hfind : carve ∈ (s.rows.find? fun r => r.claimKey = some claimKey && r.purpose = .poolCarve).toList := by
    rw [mem_find?_of_unique]
    · exact ⟨hcarve, by simp [hheld, hpurpose]⟩
    · intro a ha b hb hpa hpb
      simp only [Bool.and_eq_true, decide_eq_true_eq] at hpa hpb
      exact hkeyed.eq_of_claimKey ha hb hpa.1 hpb.1
  rw [Option.mem_toList] at hfind
  simp only [exec, hfind]
  rfl

theorem deleteScopeRange_eq {claimKey : Key} {carve : Row} (hkeyed : Keyed s.rows) (hcarve : carve ∈ s.rows)
    (hheld : carve.claimKey = some claimKey) (hpurpose : carve.purpose = .poolCarve) :
    postgres.run (deleteScopeRange claimKey) s =
      postgres.run ((releaseScopeRange carve.allocationKey).bind fun _ => send (.deleteObject claimKey)) s := by
  have hexec : postgres.exec (.findScopeRange claimKey) s = .ok (some carve.allocationKey, []) :=
    findScopeRange_eq hkeyed hcarve hheld hpurpose
  exact Database.run_step postgres hexec

theorem deleteScopeRange_after {claimKey : Key} {carve : Row} {claim : IPClaim} (hs : Consistent s.ledger)
    (hclaim : s.object claimKey = some (.claim claim)) (hcarve : carve ∈ s.rows)
    (hheld : carve.claimKey = some claimKey) (hpurpose : carve.purpose = .poolCarve) :
    postgres.After s (deleteScopeRange claimKey) fun _ s' => Vacant s.rows carve.allocationKey ∧
      ∃ tree, RangeReleased s claimKey carve.allocationKey carve.poolKey s' tree := by
  intro a s' hrun
  rw [deleteScopeRange_eq hs.keyed hcarve hheld hpurpose] at hrun
  revert a s'
  apply Database.After.bind
  refine (releaseRangeTree_after _ _ hs.keyed).mono ?_
  rintro _ s₁ ⟨tree, h₁⟩
  apply Database.After.call
  intro _ es hexec
  obtain ⟨-, rfl⟩ := deleteObject_ok hexec
  have hrows : s₁.rows = (Ledger.clear s.ledger tree [carve.allocationKey]).rows := congrArg Ledger.rows h₁.ledger
  have hids : s₁.identities = s.identities.filter fun i => i.poolKey ∉ tree := congrArg Ledger.identities h₁.ledger
  refine ⟨h₁.vacant, tree, h₁.mem_tree, ?_, ?_, ?_, ?_, ?_⟩
  · refine hrows.trans ?_
    simp only [Ledger.clear, List.mem_singleton]
    rfl
  · refine (congrArg (List.filter fun i => decide (i.poolKey ≠ claimKey)) hids).trans ?_
    rw [List.filter_filter]
    apply List.filter_congr
    intro i hi
    obtain ⟨pool, hpool⟩ := hs.identities i hi
    have hne : i.poolKey ≠ claimKey := by
      intro heq
      simp only [Db.ledger, heq, hclaim] at hpool
      cases hpool
    simp [hne]
  · intro x hx
    have hbooks := @books_removeObject x claimKey s₁
    refine hbooks.trans ?_
    split
    · rfl
    rename_i hne
    exact h₁.gone x (hx.resolve_right (Ne.symm hne))
  · intro hsource
    have hobject := congrFun (congrArg Ledger.objects (ledger_apply (.removeObject claimKey) s₁)) carve.poolKey
    refine hobject.trans ?_
    obtain ⟨pool, range, hpool, -⟩ := hs.pools carve hcarve
    have hne : carve.poolKey ≠ claimKey := by
      intro heq
      simp only [Db.ledger, heq, hclaim] at hpool
      cases hpool
    rw [h₁.ledger]
    simp only [Ledger.apply, Ledger.remove, Ledger.clear, Function.update_of_ne hne, if_neg hsource]
    rfl
  · intro x hx hne hsource
    have hbooks := @books_removeObject x claimKey s₁
    refine hbooks.trans ?_
    rw [if_neg (Ne.symm hne)]
    refine h₁.aside x hx ?_
    intro r hr hk
    rw [hs.keyed.eq_of_allocationKey hr hcarve (List.mem_singleton.mp hk)]
    exact Ne.symm hsource

theorem deleteScopeRange_succeeds {claimKey : Key} {carve : Row} {claim : IPClaim} (hs : Consistent s.ledger)
    (hclaim : s.object claimKey = some (.claim claim)) (hcarve : carve ∈ s.rows)
    (hheld : carve.claimKey = some claimKey) (hpurpose : carve.purpose = .poolCarve)
    (hdepth : Within s.rows (maxClassChainDepth + 1) carve.allocationKey) (hvacant : Vacant s.rows carve.allocationKey) :
    postgres.Succeeds s (deleteScopeRange claimKey) := by
  have hok : postgres.Succeeds s
      ((releaseScopeRange carve.allocationKey).bind fun _ => send (.deleteObject claimKey)) := by
    refine Database.Succeeds.bind (releaseRangeTree_succeeds _ _ hs hdepth hvacant) ?_
    refine (releaseRangeTree_after _ _ hs.keyed).mono ?_
    rintro _ s₁ ⟨tree, h₁⟩
    refine deleteObject_succeeds fun r hr heq => ?_
    obtain ⟨pool, range, hpool, -⟩ := hs.pools r ((h₁.mem_rows r).mp hr).1
    simp only [Db.ledger, heq, hclaim] at hpool
    cases hpool
  obtain ⟨a, s', hrun⟩ := hok
  exact ⟨a, s', (deleteScopeRange_eq hs.keyed hcarve hheld hpurpose).trans hrun⟩

end

/-- Deleting a claim that holds a range: it succeeds if nothing in the tree of carves is held, and then the whole
tree is gone and nothing beside it; otherwise nothing has happened. -/
theorem deleteScopeRange_allOrNothing (s : Db) (hs : Consistent s.ledger) (claimKey : Key) (claim : IPClaim)
    (hclaim : s.object claimKey = some (.claim claim)) (carve : Row) (hcarve : carve ∈ s.rows)
    (hheld : carve.claimKey = some claimKey) (hpurpose : carve.purpose = .poolCarve)
    (hdepth : Within s.rows (maxClassChainDepth + 1) carve.allocationKey) :
    Request.Ensures s (Request.transact (deleteScopeRange claimKey) : Handler Unit) fun answer s' =>
      (answer = .ok () ↔ Vacant s.rows carve.allocationKey) ∧
        (answer = .ok () → ∃ tree, RangeReleased s claimKey carve.allocationKey carve.poolKey s' tree) ∧
        (answer ≠ .ok () → s' = s) := by
  have hafter := deleteScopeRange_after hs hclaim hcarve hheld hpurpose
  have hanswer : ((Request.transact (deleteScopeRange claimKey) : Handler Unit) s).1 = .ok () ↔
      Vacant s.rows carve.allocationKey := by
    rw [Request.transact_succeeds]
    constructor
    · rintro ⟨a, s', hrun⟩
      exact (hafter a s' hrun).1
    · exact deleteScopeRange_succeeds hs hclaim hcarve hheld hpurpose hdepth
  have hstate : Request.Ensures s (Request.transact (deleteScopeRange claimKey) : Handler Unit) fun answer s' =>
      (answer = .ok () → ∃ tree, RangeReleased s claimKey carve.allocationKey carve.poolKey s' tree) ∧
        (answer ≠ .ok () → s' = s) := by
    apply Request.Ensures.transact
    · exact hafter.mono fun _ _ h => ⟨fun _ => h.2, fun hne => absurd rfl hne⟩
    · intro e
      refine ⟨fun h => ?_, fun _ => rfl⟩
      cases h
  exact ⟨hanswer, hstate⟩

def vpcKey : Key := poolStorageKey "infra" "vpc"

def vpcClaimKey : Key := claimObjectKey "infra" "default" "vpc"

def vpcClaim : IPClaim where
  className := "vpc"
  ipFamily := some .v4
  addressScope := none
  address := none
  prefixLength := none
  scope := []
  target := .scopeRange
  reclaimPolicy := none
  phase := .bound
  allocatedCIDR := some officePool
  poolRef := some "vpc"
  boundAllocationRef := none

def vpcCarve : Row := ⟨officeKey, vpcKey, some vpcClaimKey, officePool, "vpc", .poolCarve, .delete⟩

def vpcDb : Db where
  objects := [(officeKey, .pool (poolOf officePool .firstFit)), (vpcKey, .pool (poolOf officePool .unset)),
    (poolStorageKey "infra" "subnet", .pool (poolOf officePool .unset)), (vpcClaimKey, .claim vpcClaim)]
  rows := [vpcCarve, ⟨vpcKey, poolStorageKey "infra" "subnet", some (poolStorageKey "infra" "subnet"), officePool,
    "subnet", .poolCarve, .delete⟩]
  floors := []
  consumption := []
  identities := []

theorem vpcDb_consistent : Consistent vpcDb.ledger := by
  refine ⟨⟨by decide, by decide⟩, ?_, by simp [vpcDb, Db.ledger]⟩
  intro r hr
  have hmem : r ∈ vpcDb.rows := hr
  simp only [vpcDb, List.mem_cons, List.not_mem_nil, or_false] at hmem
  obtain rfl | rfl := hmem
  · exact ⟨(poolOf officePool .firstFit).core, officePool.net, rfl, rfl⟩
  · exact ⟨(poolOf officePool .unset).core, officePool.net, rfl, rfl⟩

theorem deleteScopeRange_allOrNothing_vpc :
    ((Request.transact (deleteScopeRange vpcClaimKey) : Handler Unit) vpcDb).1 = .ok () ∧ Vacant vpcDb.rows vpcKey ∧
      ∃ tree, RangeReleased vpcDb vpcClaimKey vpcKey officeKey
        ((Request.transact (deleteScopeRange vpcClaimKey) : Handler Unit).after vpcDb) tree := by
  have hok : ((Request.transact (deleteScopeRange vpcClaimKey) : Handler Unit) vpcDb).1 = .ok () := by decide +kernel
  obtain ⟨hvacant, hreleased, -⟩ := deleteScopeRange_allOrNothing vpcDb vpcDb_consistent vpcClaimKey vpcClaim rfl
    vpcCarve (by decide) rfl rfl (by decide)
  exact ⟨hok, hvacant.mp hok, hreleased hok⟩

end Ipam.Registry
