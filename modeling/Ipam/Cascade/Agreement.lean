import Ipam.Lib.Answers
import Ipam.Allocator.PoolTransactions
import Ipam.Allocator.Upkeep
import Ipam.Cascade.Ensure

namespace Ipam.Cascade

open Allocation Allocator Database Transaction

/-- The part of the database that provisioning for one class and one scope is about: the identity rows, which
objects exist, and the rows that pools occupy in others. -/
structure Provisioning where
  identities : List Identity
  stored : Key → Bool
  carves : List Row

namespace Provisioning

def ofDb (className digest : String) (s : Db) : Provisioning where
  identities := s.identities.filter fun i => i.className = className && i.scopeDigest = digest
  stored k := (s.object k).isSome
  carves := s.rows.filter fun r => r.purpose = .poolCarve

def apply (className digest : String) : Effect → Provisioning → Provisioning
  | .putObject k _, x => { x with stored := fun k' => if k' = k then true else x.stored k' }
  | .removeObject k, x =>
    { x with
      stored := fun k' => if k = k' then false else x.stored k'
      identities := x.identities.filter fun i => i.poolKey ≠ k }
  | .insertRow r, x => if r.purpose = .poolCarve then { x with carves := x.carves ++ [r] } else x
  | .deleteRow pool k, x =>
    { x with carves := x.carves.filter fun r => ¬ (r.poolKey = pool ∧ r.allocationKey = k) }
  | .setClaimKey k claim, x =>
    { x with carves := x.carves.map fun r => if r.allocationKey = k then { r with claimKey := claim } else r }
  | .insertIdentity i, x =>
    if i.className = className ∧ i.scopeDigest = digest then { x with identities := x.identities ++ [i] } else x
  | .insertFloor _ _ _, x => x
  | .setFloor _ _ _, x => x
  | .putConsumed _ _, x => x

theorem ofDb_apply (className digest : String) (e : Effect) (s : Db) :
    ofDb className digest (e.apply s) = (ofDb className digest s).apply className digest e := by
  cases e with
  | putObject k o =>
    simp only [ofDb, apply, Effect.apply, Db.object, lookup_put]
    congr 1
    funext k'
    split <;> rfl
  | removeObject k =>
    simp only [ofDb, apply, Effect.apply, Db.object, lookup_remove, List.filter_filter]
    congr 1
    · apply List.filter_congr
      intro i _
      rw [Bool.and_comm]
    · funext k'
      split <;> rfl
  | insertRow r =>
    simp only [ofDb, apply, Effect.apply, List.filter_append]
    by_cases hr : r.purpose = .poolCarve
    · simp [hr, Db.object]
    · simp [hr, Db.object]
  | deleteRow pool k =>
    simp only [ofDb, apply, Effect.apply, List.filter_filter, Db.object]
    congr 1
    apply List.filter_congr
    intro r _
    rw [Bool.and_comm]
  | setClaimKey k claim =>
    simp only [ofDb, apply, Effect.apply, Db.object]
    congr 1
    induction s.rows with
    | nil => rfl
    | cons r rows ih =>
      have hpurpose : (if r.allocationKey = k then { r with claimKey := claim } else r).purpose = r.purpose := by
        split <;> rfl
      rw [List.map_cons, List.filter_cons, List.filter_cons, hpurpose, ih]
      split <;> rfl
  | insertIdentity i =>
    simp only [ofDb, apply, Effect.apply, List.filter_append, Db.object]
    by_cases hi : i.className = className ∧ i.scopeDigest = digest
    · simp [hi]
    · simp [hi]
  | insertFloor pool digest' floor => rfl
  | setFloor pool digest' floor => rfl
  | putConsumed pool n => rfl

def HasPool (x : Provisioning) (k : Key) : Prop :=
  x.stored k = true ∧ (x.carves.filter fun r => r.allocationKey = k).length = 1

structure Consistent (proposed : Key → Prop) (x : Provisioning) : Prop where
  unique : x.identities.length ≤ 1
  named : ∀ i ∈ x.identities, x.HasPool i.poolKey
  naming : ∀ k, proposed k → x.HasPool k → ∃ i ∈ x.identities, i.poolKey = k

end Provisioning

section

variable {className digest : String}

theorem ofDb_view_singleton (e : Effect) (s : Db) :
    Provisioning.ofDb className digest (postgres.view [e] s) =
      (Provisioning.ofDb className digest s).apply className digest e :=
  Provisioning.ofDb_apply className digest e s

theorem keeps_read {α : Type} {p : Tx α} (h : Emits postgres (fun _ => False) p) :
    Keeps postgres (Provisioning.ofDb className digest) p :=
  Keeps.of_emits h fun _ hfalse => hfalse.elim

theorem keeps_books {α : Type} {emptyDigest : String} {k : Key} {p : Tx α}
    (h : Emits postgres (Effect.Books emptyDigest k) p) : Keeps postgres (Provisioning.ofDb className digest) p := by
  apply Keeps.of_emits h
  intro e he s
  have happly : Provisioning.ofDb className digest (postgres.apply e s) = _ :=
    Provisioning.ofDb_apply className digest e s
  rw [happly]
  cases e with
  | insertRow r =>
    obtain ⟨b, rfl⟩ := he
    rfl
  | insertFloor pool d floor => rfl
  | setFloor pool d floor => rfl
  | putConsumed pool n => rfl
  | _ => exact he.elim

theorem keeps_persistPoolCapacity (k : Key) (pool : IPPool) (parents : List IPNet) (n : ℕ) :
    Keeps postgres (Provisioning.ofDb className digest) (persistPoolCapacity k pool parents n) := by
  apply Keeps.call
  intro s r es hexec
  obtain ⟨hstored, rfl⟩ := updateObject_ok hexec
  rw [ofDb_view_singleton]
  simp only [Provisioning.apply, Provisioning.ofDb]
  congr 1
  funext k'
  split
  · rename_i heq
    rw [heq]
    cases hobj : s.object k with
    | none => simp [hobj] at hstored
    | some o => rfl
  · rfl

theorem keeps_materialiseReservations (emptyDigest : String) (k : Key) (pool : IPPool) (parents : List IPNet) :
    Keeps postgres (Provisioning.ofDb className digest) (materialiseReservations emptyDigest k pool parents) := by
  simp only [materialiseReservations]
  split
  · trivial
  apply (keeps_read (emits_read (q := .holdsReservations k) fun _ => rfl)).bind
  intro held
  split
  · trivial
  apply (Keeps.ofExcept _).bind
  intro blocks
  apply (keeps_books (reserveBlocks_books emptyDigest k parents blocks none)).bind
  intro consumed
  cases consumed with
  | none => trivial
  | some consumed => exact keeps_persistPoolCapacity k pool parents consumed

variable {Others : List Lock → Db → Db → Prop} {guard : Lock} {x : Provisioning}

def Carved (k : Key) (x y : Provisioning) : Prop :=
  ∃ r : Row, r.allocationKey = k ∧ (x.carves.filter fun r => r.allocationKey = k) = [] ∧
    y = { x with carves := x.carves ++ [r] }

theorem insertAllocation_locked (F : Frozen postgres Others guard (Provisioning.ofDb className digest)) {r : Row}
    (hr : r.purpose = .poolCarve) :
    Locked postgres Others guard (Provisioning.ofDb className digest) x (send (.insertAllocation r))
      (fun _ y => Carved r.allocationKey x y) (fun _ _ => True) := by
  apply Locked.step F
  · exact fun _ _ _ _ => trivial
  · rintro s u es rfl hexec
    have h : exec (.insertAllocation r) s = .ok (u, es) := hexec
    simp only [exec] at h
    cases hins : insertRow s r with
    | error e =>
      rw [hins] at h
      cases h
    | ok es' =>
      rw [hins] at h
      cases h
      rw [insertRow_ok hins]
      apply Locked.pure
      refine ⟨r, rfl, ?_, ?_⟩
      · simp only [insertRow] at hins
        repeat' split at hins
        all_goals try cases hins
        rename_i hfree _ _
        simp only [List.any_eq_true, decide_eq_true_eq, not_exists, not_and] at hfree
        simp only [Provisioning.ofDb, List.filter_filter, List.filter_eq_nil_iff, Bool.and_eq_true,
          decide_eq_true_eq, not_and]
        exact fun o ho hkey => absurd hkey (hfree o ho)
      · rw [ofDb_view_singleton]
        simp [Provisioning.apply, hr]

theorem recordBlock_carved (F : Frozen postgres Others guard (Provisioning.ofDb className digest)) (pool : IPPool)
    (parents : List IPNet) (block : IPNet) (source : Key) (carve : PoolCarve) :
    Locked postgres Others guard (Provisioning.ofDb className digest) x
      (recordBlock pool parents block (carve.row source) source) (fun _ y => Carved carve.allocationKey x y)
      (fun _ _ => True) := by
  apply (keeps_read (consumptionAfterAllocate_emits source parents block)).then_locked F
  intro consumed
  apply (Keeps.ofOption _).then_locked F
  intro text
  apply Locked.bind
  apply (insertAllocation_locked F (r := carve.row source text) rfl).mono _ fun _ _ h => h
  intro _ y hy
  apply (keeps_books (writeConsumed_books "" source consumed)).then_locked F
  intro _
  apply (keeps_persistPoolCapacity source pool parents consumed).then_locked F
  exact fun _ => Locked.pure hy

theorem carveFromPool_carved (F : Frozen postgres Others guard (Provisioning.ofDb className digest))
    (emptyDigest : String) (source : Key) (n : ℤ) (carve : PoolCarve) :
    Locked postgres Others guard (Provisioning.ofDb className digest) x
      (carveFromPool emptyDigest source n carve) (fun _ y => Carved carve.allocationKey x y) (fun _ _ => True) := by
  apply (keeps_read (emits_read (q := .lockObject source) fun _ => rfl)).bind (fun o => Keeps.ofOption _)
    |>.then_locked F
  intro pool
  apply (keeps_read (p := parsePoolCIDR pool) ((Emits.ofOption _).bind fun _ => trivial)).then_locked F
  intro parents
  apply (keeps_materialiseReservations emptyDigest source pool parents).then_locked F
  intro _
  apply (keeps_books (findBlock_books emptyDigest source spaceAll parents n pool.strategy)).then_locked F
  intro block
  apply Locked.bind
  apply (recordBlock_carved F pool parents block source carve).mono _ fun _ _ h => h
  exact fun _ y hy => Locked.pure hy

theorem provisionPool_locked (F : Frozen postgres Others guard (Provisioning.ofDb className digest))
    (emptyDigest : String) (level : CascadeLevel) (source : Key) :
    Locked postgres Others guard (Provisioning.ofDb className digest) x (provisionPool emptyDigest level source)
      (fun _ y => ∃ z, Carved level.poolKey x z ∧
        y = { z with stored := fun k => if k = level.poolKey then true else z.stored k }) (fun _ _ => True) := by
  apply (Keeps.ofExcept _).then_locked F
  intro prefixLen
  apply Locked.bind
  apply (carveFromPool_carved F emptyDigest source prefixLen ⟨level.poolKey, level.scopeDigest⟩).mono _
    fun _ _ h => h
  intro cidr z hz
  apply Locked.bind
  apply Locked.step F
  · exact fun _ _ _ _ => trivial
  · rintro s u es rfl hexec
    obtain ⟨-, rfl⟩ := insertObject_ok hexec
    apply Locked.pure
    apply ((keeps_materialiseReservations emptyDigest level.poolKey _ [cidr]).locked F _).mono _ fun _ _ h => h
    rintro _ y rfl
    exact ⟨_, hz, ofDb_view_singleton _ s⟩

end

def Names (className digest : String) (s : Db) (k : Key) : Prop :=
  ∃ i ∈ (Provisioning.ofDb className digest s).identities, i.poolKey = k

def racing (className digest : String) : Discipline postgres (Lock.conflictsWith false) :=
  { rowLocking false with
    evolves := fun s s' => ∀ k, Names className digest s k → Names className digest s' k
    evolves_refl := fun _ _ h => h
    evolves_trans := fun _ _ _ h h' k hk => h' k (h k hk) }

section

variable {className digest : String} {proposed : Key → Prop}

abbrev RaceOthers (className digest : String) (proposed : Key → Prop) : List Lock → Db → Db → Prop :=
  (racing className digest).Others (fun s => (Provisioning.ofDb className digest s).Consistent proposed)
    (.identity className digest) (Same (Provisioning.ofDb className digest))

theorem race_frozen (className digest : String) (proposed : Key → Prop) :
    Frozen postgres (RaceOthers className digest proposed) (.identity className digest)
      (Provisioning.ofDb className digest) := by
  apply (racing className digest).frozen
  intro e s s' h
  have happly : ∀ s, Provisioning.ofDb className digest (postgres.apply e s) =
      (Provisioning.ofDb className digest s).apply className digest e :=
    Provisioning.ofDb_apply className digest e
  rw [happly, happly, h]

theorem names_of_lookup {s : Db} {k : Key}
    (h : (s.identities.find? fun i => i.className = className && i.scopeDigest = digest).map Identity.poolKey =
      some k) : Names className digest s k := by
  obtain ⟨i, hi, rfl⟩ := Option.map_eq_some_iff.mp h
  have hmatch := List.find?_some (p := fun i : Identity => i.className = className && i.scopeDigest = digest) hi
  exact ⟨i, List.mem_filter.mpr ⟨List.mem_of_find?_eq_some hi, hmatch⟩, rfl⟩

abbrev RaceWon (className digest : String) (proposed : Key → Prop) (a : Key × Bool) (log : List Effect)
    (held : List Lock) (c : Db) : Prop :=
  (racing className digest).Commits (fun s => (Provisioning.ofDb className digest s).Consistent proposed)
      (.identity className digest) (Same (Provisioning.ofDb className digest)) log held c ∧
    ∀ c', RaceOthers className digest proposed held c c' → Names className digest (postgres.view log c') a.1

theorem raceWon_of_names {c : Db} {k : Key} (h : Names className digest c k) (held : List Lock) (b : Bool) :
    RaceWon className digest proposed (k, b) [] held c :=
  ⟨fun _ hc' => ⟨hc'.inv, Or.inr rfl, fun _ hk => hk⟩, fun _ hc' => hc'.evolves k h⟩

theorem consistent_provisioned {x : Provisioning} (hx : x.Consistent proposed) (hnone : x.identities = [])
    {i : Identity} {z : Provisioning} (hz : Carved i.poolKey { x with identities := [i] } z) :
    Provisioning.Consistent proposed
      { z with stored := fun k => if k = i.poolKey then true else z.stored k } := by
  obtain ⟨r, hr, hfree, rfl⟩ := hz
  have hcarves : ∀ k, ((x.carves ++ [r]).filter fun r => r.allocationKey = k) =
      (x.carves.filter fun r => r.allocationKey = k) ++ if k = i.poolKey then [r] else [] := by
    intro k
    rw [List.filter_append]
    by_cases hk : k = i.poolKey
    · simp [hk, hr]
    · simp [hk, hr, Ne.symm hk]
  refine ⟨by simp, ?_, ?_⟩
  · intro j hj
    rw [List.mem_singleton.mp hj]
    refine ⟨if_pos rfl, ?_⟩
    rw [hcarves, hfree]
    simp
  · intro k hk hpool
    by_cases heq : k = i.poolKey
    · exact ⟨i, by simp, heq.symm⟩
    · exfalso
      have hbefore : x.HasPool k := by
        obtain ⟨hstored, hcount⟩ := hpool
        rw [hcarves, if_neg heq, List.append_nil] at hcount
        exact ⟨by simpa [heq] using hstored, hcount⟩
      obtain ⟨j, hj, -⟩ := hx.naming k hk hbefore
      rw [hnone] at hj
      cases hj

theorem provisionPool_wins {emptyDigest : String} {level : CascadeLevel} {source : Key} {c : Db} {held : List Lock}
    (hinv : (Provisioning.ofDb className digest c).Consistent proposed)
    (hnone : (Provisioning.ofDb className digest c).identities = []) (hguard : .identity className digest ∈ held) :
    postgres.wp (RaceOthers className digest proposed) (RaceWon className digest proposed) (fun _ _ _ _ => True)
      ((provisionPool emptyDigest level source).bind fun _ => .pure (level.poolKey, true))
      [.insertIdentity ⟨className, digest, level.poolKey⟩] held c := by
  have hstart : Provisioning.ofDb className digest
      (postgres.view [.insertIdentity ⟨className, digest, level.poolKey⟩] c) =
      { Provisioning.ofDb className digest c with identities := [⟨className, digest, level.poolKey⟩] } := by
    rw [ofDb_view_singleton]
    simp [Provisioning.apply, hnone]
  apply Database.wp_bind
  have hlocked := provisionPool_locked (race_frozen className digest proposed) emptyDigest level source _ held c
    hguard hstart
  have hboth := Database.wp_and hlocked ((race_frozen className digest proposed).wp_frozen _ hguard)
  apply Database.wp_mono hboth _ fun _ _ _ _ h => h
  rintro _ log' held' c' ⟨⟨hg, z, hz, hview⟩, hsame⟩
  have hend : ∀ c'', RaceOthers className digest proposed held' c' c'' →
      Provisioning.ofDb className digest (postgres.view log' c'') =
        { z with stored := fun k => if k = level.poolKey then true else z.stored k } := by
    intro c'' hc''
    rw [← hview]
    exact (race_frozen className digest proposed).view log' (hc''.frozen hg)
  have hidentities : z.identities = [⟨className, digest, level.poolKey⟩] := by
    obtain ⟨r, -, -, rfl⟩ := hz
    rfl
  constructor
  · intro c'' hc''
    refine ⟨?_, Or.inl hg, ?_⟩
    · have hinv' := consistent_provisioned (i := ⟨className, digest, level.poolKey⟩) hinv hnone hz
      rwa [← hend c'' hc''] at hinv'
    · rintro k ⟨i, hi, -⟩
      rw [hc''.frozen hg, hsame, hnone] at hi
      cases hi
  · intro c'' hc''
    refine ⟨⟨className, digest, level.poolKey⟩, ?_, rfl⟩
    rw [hend c'' hc'', hidentities]
    exact List.mem_singleton.mpr rfl

theorem claimPoolIdentity_answers {emptyDigest : String} {level : CascadeLevel} {source : Key}
    (hname : level.class_.name = className) (hdigest : level.scopeDigest = digest) (held : List Lock) (c : Db) :
    postgres.wp (RaceOthers className digest proposed) (RaceWon className digest proposed) (fun _ _ _ _ => True)
      ((claimPoolIdentity level.class_.name level.scopeDigest level.poolKey).bind fun claimed =>
        if claimed.2 then
          (provisionPool emptyDigest level source).bind fun _ => .pure (claimed.1, true)
        else .pure (claimed.1, false))
      [] held c := by
  subst hname hdigest
  intro c₁ h₁
  by_cases htaken : (c₁.identities.any fun o =>
      o.className = level.class_.name && o.scopeDigest = level.scopeDigest) = true
  · have hexec : postgres.exec (.claimPoolIdentity ⟨level.class_.name, level.scopeDigest, level.poolKey⟩)
        (postgres.view [] c₁) = .ok (false, []) := if_pos htaken
    rw [hexec]
    -- the loser reads the winner's row, which is still there
    intro c₂ h₂
    cases hlookup : (c₂.identities.find? fun i =>
        i.className = level.class_.name && i.scopeDigest = level.scopeDigest).map Identity.poolKey with
    | none =>
      have hexec' : postgres.exec (.lookupPoolIdentity level.class_.name level.scopeDigest)
          (postgres.view ([] ++ []) c₂) = .ok (none, []) := by
        rw [← hlookup]
        rfl
      rw [hexec']
      trivial
    | some k =>
      have hexec' : postgres.exec (.lookupPoolIdentity level.class_.name level.scopeDigest)
          (postgres.view ([] ++ []) c₂) = .ok (some k, []) := by
        rw [← hlookup]
        rfl
      rw [hexec']
      exact raceWon_of_names (names_of_lookup hlookup) _ false
  · have hexec : postgres.exec (.claimPoolIdentity ⟨level.class_.name, level.scopeDigest, level.poolKey⟩)
        (postgres.view [] c₁) = .ok (true, [.insertIdentity ⟨level.class_.name, level.scopeDigest, level.poolKey⟩]) :=
      if_neg htaken
    rw [hexec]
    apply provisionPool_wins h₁.inv
    · rw [Provisioning.ofDb, List.filter_eq_nil_iff]
      intro i hi hmatch
      exact htaken (List.any_eq_true.mpr ⟨i, hi, hmatch⟩)
    · have hlocks : postgres.locks (.claimPoolIdentity ⟨level.class_.name, level.scopeDigest, level.poolKey⟩)
          (postgres.view [] c₁) = [.identity level.class_.name level.scopeDigest] := if_neg htaken
      rw [hlocks]
      simp

theorem ensureLevel_answers {emptyDigest : String} {level : CascadeLevel} {source : Key}
    (hname : level.class_.name = className) (hdigest : level.scopeDigest = digest) (c : Db) :
    postgres.wp (RaceOthers className digest proposed) (RaceWon className digest proposed) (fun _ _ _ _ => True)
      (ensureLevel emptyDigest level source) [] [] c := by
  intro c₁ h₁
  cases hlookup : (c₁.identities.find? fun i =>
      i.className = level.class_.name && i.scopeDigest = level.scopeDigest).map Identity.poolKey with
  | some k =>
    have hexec : postgres.exec (.lookupPoolIdentity level.class_.name level.scopeDigest) (postgres.view [] c₁) =
        .ok (some k, []) := by
      rw [← hlookup]
      rfl
    rw [hexec]
    subst hname hdigest
    exact raceWon_of_names (names_of_lookup hlookup) _ false
  | none =>
    have hexec : postgres.exec (.lookupPoolIdentity level.class_.name level.scopeDigest) (postgres.view [] c₁) =
        .ok (none, []) := by
      rw [← hlookup]
      rfl
    rw [hexec]
    exact claimPoolIdentity_answers hname hdigest _ c₁

def ArbiterFirst (log : List Effect) (held : List Lock) : Prop :=
  (∃ i, .insertIdentity i ∈ log) ∨ log = [] ∧ held = []

theorem ensureLevel_arbiterFirst (emptyDigest : String) (level : CascadeLevel) (source : Key) :
    Along postgres ArbiterFirst (ensureLevel emptyDigest level source) [] [] := by
  have hstart : ArbiterFirst [] [] := Or.inr ⟨rfl, rfl⟩
  refine ⟨hstart, ?_⟩
  intro s existing es hexec
  obtain ⟨-, rfl⟩ := Prod.mk.inj (Except.ok.inj hexec)
  cases existing with
  | some key => exact hstart
  | none =>
    refine ⟨hstart, ?_⟩
    intro s₁ won es₁ hexec₁
    have h₁ : exec (.claimPoolIdentity ⟨level.class_.name, level.scopeDigest, level.poolKey⟩) s₁ =
        .ok (won, es₁) := hexec₁
    simp only [exec] at h₁
    split at h₁
    · rename_i htaken
      obtain ⟨rfl, rfl⟩ := Prod.mk.inj (Except.ok.inj h₁)
      have hlocks : postgres.locks (.claimPoolIdentity ⟨level.class_.name, level.scopeDigest, level.poolKey⟩) s₁ = [] :=
        if_pos htaken
      rw [hlocks]
      refine ⟨hstart, ?_⟩
      intro s₂ winner es₂ hexec₂
      obtain ⟨-, rfl⟩ := Prod.mk.inj (Except.ok.inj hexec₂)
      cases winner with
      | none => exact hstart
      | some key => exact hstart
    · obtain ⟨rfl, rfl⟩ := Prod.mk.inj (Except.ok.inj h₁)
      apply Along.of_stable (H := fun log _ => ∃ i, .insertIdentity i ∈ log)
      · rintro log held es' ls ⟨i, hi⟩
        exact ⟨i, List.mem_append_left _ hi⟩
      · exact fun log held h => Or.inl h
      · exact ⟨⟨level.class_.name, level.scopeDigest, level.poolKey⟩, by simp⟩

def Contender (emptyDigest className digest : String) (proposed : Key → Prop) (p : Tx (Key × Bool)) : Prop :=
  ∃ level source, level.class_.name = className ∧ level.scopeDigest = digest ∧ proposed level.poolKey ∧
    p = ensureLevel emptyDigest level source

theorem names_unique {s : Db} (h : (Provisioning.ofDb className digest s).Consistent proposed) {k k' : Key}
    (hk : Names className digest s k) (hk' : Names className digest s k') : k = k' := by
  obtain ⟨i, hi, rfl⟩ := hk
  obtain ⟨j, hj, rfl⟩ := hk'
  match hids : (Provisioning.ofDb className digest s).identities, h.unique with
  | [], _ =>
    rw [hids] at hi
    cases hi
  | [o], _ =>
    rw [hids] at hi hj
    rw [List.mem_singleton.mp hi, List.mem_singleton.mp hj]

theorem ensureLevel_agreement {emptyDigest : String} {init : Db}
    (hinit : (Provisioning.ofDb className digest init).Consistent proposed)
    {w : World (Stmt ⊕ Key × Bool) (AnswerRes Res (Key × Bool)) Err (Db × List (Key × Bool)) (Effect ⊕ Key × Bool) Lock}
    (hw : Reachable (postgres.answering (Key × Bool)) Lock.conflicts
      (fun q => ∃ p, Contender emptyDigest className digest proposed p ∧ q = p.answered) (fun _ _ => True)
      (init, []) w) :
    (∀ a ∈ w.committed.2, ∀ b ∈ w.committed.2, a.1 = b.1) ∧
      (Provisioning.ofDb className digest w.committed.1).Consistent proposed ∧
      ∀ y ∈ w.txns, (∃ i, .inl (.insertIdentity i) ∈ y.2.log) ∨ (∀ e, .inl e ∉ y.2.log) ∧ y.2.held = [] := by
  rw [← Lock.conflictsWith_false] at hw
  have hsafe : ∀ p, Contender emptyDigest className digest proposed p → ∀ c,
      (Provisioning.ofDb className digest c).Consistent proposed →
        (racing className digest).Answers
          (fun s => (Provisioning.ofDb className digest s).Consistent proposed) (.identity className digest)
          (Same (Provisioning.ofDb className digest)) (fun a s => Names className digest s a.1) p [] [] c := by
    rintro p ⟨level, source, hname, hdigest, -, rfl⟩ c -
    exact ensureLevel_answers hname hdigest c
  obtain ⟨hinv, hnames⟩ := (racing className digest).reachable_answers (by simp [Lock.conflictsWith, Lock.conflicts])
    (fun a s s' ha hev => hev a.1 ha) hinit hsafe hw
  refine ⟨fun a ha b hb => names_unique hinv (hnames a ha) (hnames b hb), hinv, ?_⟩
  apply Along.reachable (G := fun log held =>
    (∃ i, .inl (.insertIdentity i) ∈ log) ∨ (∀ e, .inl e ∉ log) ∧ held = []) _ hw
  rintro q ⟨p, ⟨level, source, -, -, -, rfl⟩, rfl⟩
  apply Along.answered _ _ (ensureLevel_arbiterFirst emptyDigest level source)
  · rintro log held (⟨i, hi⟩ | ⟨rfl, rfl⟩)
    · exact Or.inl ⟨i, List.mem_map_of_mem hi⟩
    · exact Or.inr ⟨by simp, rfl⟩
  · rintro log held a (⟨i, hi⟩ | ⟨rfl, rfl⟩)
    · exact Or.inl ⟨i, List.mem_append_left _ (List.mem_map_of_mem hi)⟩
    · exact Or.inr ⟨by simp, rfl⟩

end

def backboneLevel (poolName : String) : CascadeLevel :=
  ⟨⟨⟨false, none, some .v4, none, none, [], [], none, 28, none, none, none⟩, "backbone", "platform", "backbone"⟩,
    ⟨"platform", ""⟩, [], "scope", poolName, poolStorageKey "platform" poolName⟩

def backboneProposed (k : Key) : Prop :=
  k = poolStorageKey "platform" "backbone-a" ∨ k = poolStorageKey "platform" "backbone-b"

def backboneTxns : List (Prog (Stmt ⊕ Key × Bool) (AnswerRes Res (Key × Bool)) Err Unit) :=
  [(ensureLevel "none" (backboneLevel "backbone-a") officeKey).answered,
    (ensureLevel "none" (backboneLevel "backbone-b") officeKey).answered]

theorem backboneTxns_contenders : ∀ q ∈ backboneTxns,
    ∃ p, Contender "none" "backbone" "scope" backboneProposed p ∧ q = p.answered := by
  simp only [backboneTxns, List.forall_mem_cons]
  exact ⟨⟨_, ⟨_, _, rfl, rfl, Or.inl rfl, rfl⟩, rfl⟩, ⟨_, ⟨_, _, rfl, rfl, Or.inr rfl, rfl⟩, rfl⟩, by simp⟩

theorem ensureLevel_agreement_backbone :
    ∃ w : World (Stmt ⊕ Key × Bool) (AnswerRes Res (Key × Bool)) Err (Db × List (Key × Bool)) (Effect ⊕ Key × Bool) Lock,
      w.committed.2 = [(poolStorageKey "platform" "backbone-a", true), (poolStorageKey "platform" "backbone-a", false)] ∧
      (∀ a ∈ w.committed.2, ∀ b ∈ w.committed.2, a.1 = b.1) ∧
      (Provisioning.ofDb "backbone" "scope" w.committed.1).Consistent backboneProposed := by
  have hreach : ∃ w, Reachable (postgres.answering (Key × Bool)) Lock.conflicts
      (fun q => ∃ p, Contender "none" "backbone" "scope" backboneProposed p ∧ q = p.answered) (fun _ _ => True)
      (poolDb officeKey officePool .firstFit, []) w ∧
      decide (w.committed.2 = [(poolStorageKey "platform" "backbone-a", true),
        (poolStorageKey "platform" "backbone-a", false)]) = true :=
    Reachable.exists_of_runAll (f := fun s : Db × List (Key × Bool) =>
        decide (s.2 = [(poolStorageKey "platform" "backbone-a", true), (poolStorageKey "platform" "backbone-a", false)]))
      (fun _ _ _ => trivial) (fun _ _ _ => trivial) (fun _ _ _ => trivial) backboneTxns_contenders (by decide +kernel)
  obtain ⟨w, hw, hanswers⟩ := hreach
  have hinit : (Provisioning.ofDb "backbone" "scope" (poolDb officeKey officePool .firstFit)).Consistent
      backboneProposed := by
    refine ⟨by decide, by simp [Provisioning.ofDb, poolDb, Db.empty], ?_⟩
    rintro k - ⟨-, hcarve⟩
    simp [Provisioning.ofDb, poolDb, Db.empty] at hcarve
  have hall := ensureLevel_agreement hinit hw
  exact ⟨w, of_decide_eq_true hanswers, hall.1, hall.2.1⟩

end Ipam.Cascade
