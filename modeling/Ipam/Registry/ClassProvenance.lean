import Ipam.Database.PoolState
import Ipam.Registry.Classes

namespace Ipam.Registry

open Allocation Allocator Cascade Database Transaction

structure Checked (req : ClassRequest) (s : Db) : Prop where
  authorised : authorizeSource req.project req.canUse req.class_ = .ok ()
  agreed : ∃ s', postgres.run (validateOfferAgreement req.project req.name req.class_) s = .ok ((), s')

theorem persist_ensures {α : Type} {dryRun : List String} {p : Tx α} {s : Db} {P : Db → Prop} (hs : P s)
    (hp : postgres.After s p fun _ s' => P s') : Request.Ensures s (persist dryRun p) fun _ s' => P s' := by
  simp only [persist]
  split
  · exact .rollback (fun _ _ _ => hs) fun _ => hs
  · exact .transact hp fun _ => hs

theorem createClass_ensures (req : ClassRequest) (s : Db) :
    Request.Ensures s (createClass req) fun _ s' => s' = s ∨
      Checked req s ∧ s.object req.key = none ∧ s' = Effect.apply (.putObject req.key (.class_ req.class_)) s := by
  apply Request.Ensures.bind
  apply Request.Ensures.ofExcept _ fun _ => Or.inl rfl
  intro u hauth
  apply Request.Ensures.bind
  apply Request.Ensures.rollback _ fun _ => Or.inl rfl
  intro u' s₁ hrun
  apply persist_ensures (Or.inl rfl)
  refine Strategy.create_after.mono ?_
  rintro new s' ⟨rfl, -, habsent, rfl⟩
  exact Or.inr ⟨⟨hauth, s₁, hrun⟩, habsent, rfl⟩

def SameSource (c old : IPClass) : Prop :=
  c.source = old.source ∧ c.parentClassName = old.parentClassName ∧ c.uniqueWithin = old.uniqueWithin

theorem updateClass_ensures (req : ClassRequest) (forceAllowCreate : Bool) (s : Db) :
    Request.Ensures s (updateClass req forceAllowCreate) fun _ s' => s' = s ∨
      s' = Effect.apply (.putObject req.key (.class_ req.class_)) s ∧
        (s.object req.key = none ∧ forceAllowCreate = true ∨
          ∃ old, s.class_ req.key = some old ∧ SameSource req.class_ old) := by
  apply persist_ensures (Or.inl rfl)
  refine (Strategy.update_after fun _ => .pure rfl).mono ?_
  rintro new s' (⟨hforce, rfl, -, habsent, rfl⟩ | ⟨⟨o, old, ho, hdecode, rfl, hvalid⟩, hs'⟩)
  · exact Or.inr ⟨rfl, Or.inl ⟨habsent, hforce⟩⟩
  · rcases hs' with rfl | rfl
    · exact Or.inl rfl
    · refine Or.inr ⟨rfl, Or.inr ⟨old, ?_, ?_⟩⟩
      · cases o with
        | class_ c =>
          obtain rfl := Option.some.inj hdecode
          simp only [Db.class_, ho]
        | pool p => cases hdecode
        | claim c => cases hdecode
        | allocation a => cases hdecode
      · simp only [ipClassStrategy, Bool.and_eq_true, decide_eq_true_eq] at hvalid
        obtain ⟨⟨⟨⟨⟨⟨-, hsource⟩, -⟩, -⟩, hparent⟩, hunique⟩, -⟩ := hvalid
        exact ⟨hsource, hparent, hunique⟩

theorem class_put (s : Db) (k k' : Key) (c : IPClass) :
    (Effect.apply (.putObject k (.class_ c)) s).class_ k' = if k' = k then some c else s.class_ k' := by
  simp only [Effect.apply, Db.class_, Db.object, lookup_put]
  by_cases h : k' = k
  · rw [if_pos h, if_pos h]
  · rw [if_neg h, if_neg h]

theorem class_remove (s : Db) (k k' : Key) :
    (Effect.apply (.removeObject k) s).class_ k' = if k = k' then none else s.class_ k' := by
  simp only [Effect.apply, Db.class_, Db.object, lookup_remove]
  by_cases h : k = k'
  · rw [if_pos h, if_pos h]
  · rw [if_neg h, if_neg h]

theorem deleteClass_ensures (project name : String) (admitted : Bool) (dryRun : List String) (s : Db) :
    Request.Ensures s (deleteClass project name admitted dryRun) fun _ s' =>
      ∀ k c, s'.class_ k = some c → s.class_ k = some c := by
  apply persist_ensures (P := fun s' => ∀ k c, s'.class_ k = some c → s.class_ k = some c) fun _ _ h => h
  refine Strategy.delete_after.mono ?_
  rintro _ s' ⟨-, -, rfl⟩ k c hc
  rw [class_remove] at hc
  split at hc
  · cases hc
  · exact hc

inductive ClassAction where
  | create (req : ClassRequest)
  | update (req : ClassRequest) (forceAllowCreate : Bool)
  | delete (project name : String) (admitted : Bool) (dryRun : List String)
  -- what the other registries do to the rest of the database
  | other (db : Db)

/-- The database, and for every class the request that created it and the state it was created in. -/
structure ClassHistory where
  db : Db
  creator : Key → Option (ClassRequest × Db)

namespace ClassHistory

def write (h : ClassHistory) (req : ClassRequest) (db : Db) : ClassHistory :=
  ⟨db, fun k => if k = req.key ∧ h.db.class_ k = none then some (req, h.db) else h.creator k⟩

def serve : ClassAction → ClassHistory → ClassHistory
  | .create req, h => h.write req ((createClass req).after h.db)
  | .update req forceAllowCreate, h => h.write req ((updateClass req forceAllowCreate).after h.db)
  | .delete project name admitted dryRun, h => ⟨(deleteClass project name admitted dryRun).after h.db, h.creator⟩
  | .other db, h => ⟨db, h.creator⟩

def Serves (checker : Bool) : ClassAction → ClassHistory → Prop
  | .create req, _ => req.canUse.isSome = true → checker = true
  | .update req _, _ => req.canUse.isSome = true → checker = true
  | .delete _ _ _ _, _ => True
  | .other db, h => ∀ k, db.class_ k = h.db.class_ k

def UpdatesStored : ClassAction → ClassHistory → Prop
  | .update req forceAllowCreate, h => forceAllowCreate = true → (h.db.class_ req.key).isSome = true
  | _, _ => True

structure Vouched (checker : Bool) (k : Key) (c : IPClass) (req : ClassRequest) (s : Db) : Prop where
  key : req.key = k
  permitted : ∀ src, c.source = some src → src.1 ≠ req.project → checker = true ∧ req.canUse = some true
  agreed : ∃ s', postgres.run (validateOfferAgreement req.project req.name c) s = .ok ((), s')

def AllVouched (checker : Bool) (h : ClassHistory) : Prop :=
  ∀ k c, h.db.class_ k = some c → ∃ req s, h.creator k = some (req, s) ∧ Vouched checker k c req s

theorem vouched_of_checked {checker : Bool} {req : ClassRequest} {s : Db}
    (hchecker : req.canUse.isSome = true → checker = true) (h : Checked req s) :
    Vouched checker req.key req.class_ req s := by
  refine ⟨rfl, ?_, h.agreed⟩
  intro src hsrc hforeign
  have hauth := h.authorised
  simp only [authorizeSource, hsrc, if_neg hforeign] at hauth
  cases hcan : req.canUse with
  | none => simp [hcan] at hauth
  | some allowed =>
    rw [hcan] at hchecker
    cases allowed with
    | true => exact ⟨hchecker rfl, rfl⟩
    | false => simp [hcan] at hauth

theorem Vouched.updated {checker : Bool} {k : Key} {c old : IPClass} {req : ClassRequest} {s : Db}
    (h : Vouched checker k old req s) (hsame : SameSource c old) : Vouched checker k c req s := by
  obtain ⟨hsource, hparent, hunique⟩ := hsame
  refine ⟨h.key, ?_, ?_⟩
  · rw [hsource]
    exact h.permitted
  · have hprog : validateOfferAgreement req.project req.name c = validateOfferAgreement req.project req.name old := by
      simp only [validateOfferAgreement, hsource, hparent, hunique]
    rw [hprog]
    exact h.agreed

theorem AllVouched.write {checker : Bool} {h : ClassHistory} (hall : h.AllVouched checker) {req : ClassRequest}
    {db : Db} (hdb : ∀ k, k ≠ req.key → db.class_ k = h.db.class_ k)
    (hkey : ∀ c, db.class_ req.key = some c →
      (h.db.class_ req.key = none ∧ Vouched checker req.key c req h.db) ∨
        ∃ old, h.db.class_ req.key = some old ∧ SameSource c old) : (h.write req db).AllVouched checker := by
  intro k c hc
  have hc' : db.class_ k = some c := hc
  by_cases hk : k = req.key
  · subst hk
    rcases hkey c hc' with ⟨habsent, hvouched⟩ | ⟨old, hold, hsame⟩
    · exact ⟨req, h.db, if_pos ⟨rfl, habsent⟩, hvouched⟩
    · obtain ⟨req', s, hcreator, hvouched⟩ := hall _ old hold
      refine ⟨req', s, ?_, hvouched.updated hsame⟩
      exact (if_neg fun h => by simp [hold] at h).trans hcreator
  · rw [hdb k hk] at hc'
    obtain ⟨req', s, hcreator, hvouched⟩ := hall k c hc'
    exact ⟨req', s, (if_neg fun h => hk h.1).trans hcreator, hvouched⟩

theorem AllVouched.write_same {checker : Bool} {h : ClassHistory} (hall : h.AllVouched checker) (req : ClassRequest) :
    (h.write req h.db).AllVouched checker := by
  apply hall.write fun _ _ => rfl
  exact fun c hc => Or.inr ⟨c, hc, rfl, rfl, rfl⟩

theorem class_of_absent {s : Db} {k : Key} (h : s.object k = none) : s.class_ k = none := by
  simp only [Db.class_, h]

theorem AllVouched.step {checker : Bool} (a : ClassAction) (h : ClassHistory) (hall : h.AllVouched checker)
    (hserves : Serves checker a h) (hcond : UpdatesStored a h) : (serve a h).AllVouched checker := by
  cases a with
  | create req =>
    have hcreate : (createClass req).after h.db = h.db ∨ _ := createClass_ensures req h.db
    rcases hcreate with hsame | ⟨hchecked, habsent, hput⟩
    · simp only [serve, hsame]
      exact hall.write_same req
    · simp only [serve, hput]
      apply hall.write
      · exact fun k hk => (class_put _ _ _ _).trans (if_neg hk)
      · intro c hc
        rw [class_put, if_pos rfl] at hc
        obtain rfl := Option.some.inj hc
        exact Or.inl ⟨class_of_absent habsent, vouched_of_checked hserves hchecked⟩
  | update req forceAllowCreate =>
    have hupdate : (updateClass req forceAllowCreate).after h.db = h.db ∨ _ :=
      updateClass_ensures req forceAllowCreate h.db
    rcases hupdate with hsame | ⟨hput, hold⟩
    · simp only [serve, hsame]
      exact hall.write_same req
    · simp only [serve, hput]
      apply hall.write
      · exact fun k hk => (class_put _ _ _ _).trans (if_neg hk)
      · intro c hc
        rw [class_put, if_pos rfl] at hc
        obtain rfl := Option.some.inj hc
        rcases hold with ⟨habsent, hforce⟩ | hold
        · have hstored := hcond hforce
          simp [class_of_absent habsent] at hstored
        · exact Or.inr hold
  | delete project name admitted dryRun =>
    have hdelete : ∀ k c, ((deleteClass project name admitted dryRun).after h.db).class_ k = some c →
        h.db.class_ k = some c :=
      deleteClass_ensures project name admitted dryRun h.db
    exact fun k c hc => hall k c (hdelete k c hc)
  | other db =>
    intro k c hc
    have hc' : h.db.class_ k = some c := (hserves k).symm.trans hc
    exact hall k c hc'

theorem classes_vouched (checker : Bool) (init : Db) (hinit : ∀ k, init.class_ k = none) (h : ClassHistory)
    (hh : Served serve (fun a h => Serves checker a h ∧ UpdatesStored a h) ⟨init, fun _ => none⟩ h) :
    (∀ k c, h.db.class_ k = some c → ∃ req s, h.creator k = some (req, s) ∧ Vouched checker k c req s) ∧
      (checker = false → ∀ project name c src, h.db.class_ (classStorageKey project name) = some c →
        c.source = some src → src.1 = project) := by
  have hall : h.AllVouched checker := by
    apply hh.inv
    · intro k c hc
      have habsent := hinit k
      simp [habsent] at hc
    · exact fun a w hw ha => hw.step a w ha.1 ha.2
  refine ⟨hall, ?_⟩
  intro hchecker project name c src hc hsrc
  obtain ⟨req, s, -, hvouched⟩ := hall _ c hc
  by_contra hforeign
  have hproject : req.project = project := by
    have hkey := hvouched.key
    simp only [ClassRequest.key, classStorageKey, Key.object.injEq] at hkey
    exact hkey.1
  have hpermitted := (hvouched.permitted src hsrc (hproject ▸ hforeign)).1
  rw [hchecker] at hpermitted
  cases hpermitted

def edgeReference (canUse : Option Bool) : ClassRequest where
  project := "tenant"
  name := "edge"
  class_ := ⟨false, some ("platform", "edge"), none, none, none, [], [], none, 0, none, none, none⟩
  canUse := canUse
  admitted := true
  dryRun := []

theorem edgeReference_stored :
    (serve (.create (edgeReference (some true))) ⟨Db.empty, fun _ => none⟩).db.class_ (classStorageKey "tenant" "edge") =
      some (edgeReference (some true)).class_ := by
  decide +kernel

theorem classes_vouched_edge :
    ∃ req s, (serve (.create (edgeReference (some true))) ⟨Db.empty, fun _ => none⟩).creator
        (classStorageKey "tenant" "edge") = some (req, s) ∧
      Vouched true (classStorageKey "tenant" "edge") (edgeReference (some true)).class_ req s := by
  have hserved : Served serve (fun a h => Serves true a h ∧ UpdatesStored a h) ⟨Db.empty, fun _ => none⟩
      (serve (.create (edgeReference (some true))) ⟨Db.empty, fun _ => none⟩) :=
    Served.serve _ Served.start ⟨fun _ => rfl, trivial⟩
  exact (classes_vouched true Db.empty (fun _ => rfl) _ hserved).1 _ _ edgeReference_stored

theorem classes_unvouched_edge :
    ∃ h, Served serve (Serves false) ⟨Db.empty, fun _ => none⟩ h ∧
      h.db.class_ (classStorageKey "tenant" "edge") = some (edgeReference none).class_ ∧
      (edgeReference none).class_.source = some ("platform", "edge") := by
  have hserved : Served serve (Serves false) ⟨Db.empty, fun _ => none⟩
      (serve (.update (edgeReference none) true) ⟨Db.empty, fun _ => none⟩) :=
    Served.serve _ Served.start fun h => Bool.noConfusion h
  refine ⟨_, hserved, ?_, rfl⟩
  decide +kernel

end ClassHistory

end Ipam.Registry
