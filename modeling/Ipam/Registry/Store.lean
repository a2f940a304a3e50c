import Ipam.Cascade.Discover

/-!
The generic registry store of the API server, which the repository links and does not contain: its create, update
and delete are assumed to be the ones below, over the tables. `admitted` is the answer of the admission chain to a
request.
-/

namespace Ipam.Registry

open Allocation Allocator Cascade Database Transaction

def isDryRun (dryRun : List String) : Bool :=
  dryRun.any fun v => v = "All"

def persist {α : Type} (dryRun : List String) (p : Tx α) : Handler α :=
  if isDryRun dryRun then Request.rollback p else Request.transact p

/-- The strategy of a resource. The text argument is the name of the object. -/
structure Strategy (T : Type) where
  encode : T → Object
  decode : Object → Option T
  prepareForCreate : T → T
  validate : String → T → Bool
  prepareForUpdate : T → T → T
  validateUpdate : String → T → T → Bool

def reservationsValid (family : Option Family) : Option Reservation → Bool
  | none => true
  | some r =>
    0 ≤ r.leading && 0 ≤ r.trailing && r.leading + r.trailing ≤ 1024 &&
      (r.leading = 0 && r.trailing = 0 ||
        0 < r.unitPrefixLength && r.unitPrefixLength ≤ if family = some .v4 then 32 else 128)

namespace Strategy

variable {T : Type} (S : Strategy T)

def get (key : Key) : Tx T := do
  let o : Option Object ← send (.getObject key)
  Prog.ofOption .objectNotFound (o.bind S.decode)

def create (tenant : String) (key : Key) (obj : T) (admitted : Bool) : Tx T :=
  let prepared := S.prepareForCreate obj
  if ¬ S.validate (keyName key) prepared then .throw .invalid
  else if ¬ admitted then .throw .forbidden
  else if tenant = "" then .throw .noTenant
  else do
    send (.insertObject key (S.encode prepared))
    pure prepared

def replace (key : Key) (obj old : T) (admitted : Bool) (check : T → Tx Unit) : Tx T :=
  let new := S.prepareForUpdate obj old
  if ¬ S.validateUpdate (keyName key) new old then .throw .invalid
  else if ¬ admitted then .throw .forbidden
  else do
    check new
    if S.encode new = S.encode old then pure new
    else do
      send (.updateObject key (S.encode new))
      pure new

def update (tenant : String) (key : Key) (obj : T) (forceAllowCreate admitted : Bool) (check : T → Tx Unit) :
    Tx T := do
  let o : Option Object ← send (.lockObject key)
  match o with
  | none => if forceAllowCreate then S.create tenant key obj admitted else .throw .objectNotFound
  | some o => do
    let old ← Prog.ofOption .invalid (S.decode o)
    S.replace key obj old admitted check

def delete (key : Key) (admitted : Bool) : Tx Unit := do
  let o : Option Object ← send (.lockObject key)
  let _ ← Prog.ofOption .objectNotFound (o.bind S.decode)
  if admitted then send (.deleteObject key) else .throw .forbidden

variable {S} {tenant : String} {key : Key} {obj : T} {admitted forceAllowCreate : Bool} {check : T → Tx Unit} {s : Db}

structure Created (S : Strategy T) (key : Key) (obj : T) (s : Db) (new : T) (s' : Db) : Prop where
  prepared : new = S.prepareForCreate obj
  valid : S.validate (keyName key) new = true
  absent : s.object key = none
  stored : s' = Effect.apply (.putObject key (S.encode new)) s

structure Replaced (S : Strategy T) (key : Key) (obj : T) (s : Db) (new : T) (s' : Db) : Prop where
  updated : ∃ o old, s.object key = some o ∧ S.decode o = some old ∧ new = S.prepareForUpdate obj old ∧
    S.validateUpdate (keyName key) new old = true
  stored : s' = s ∨ s' = Effect.apply (.putObject key (S.encode new)) s

theorem create_after : postgres.After s (S.create tenant key obj admitted) (S.Created key obj s) := by
  simp only [create]
  split
  · exact .throw
  rename_i hvalid
  split
  · exact .throw
  split
  · exact .throw
  apply Database.After.step
  intro r es hexec
  obtain ⟨habsent, rfl⟩ := insertObject_ok hexec
  exact .pure ⟨rfl, by simpa using hvalid, habsent, rfl⟩

theorem get_after {Q : T → Db → Prop} (h : ∀ o obj, s.object key = some o → S.decode o = some obj → Q obj s) :
    postgres.After s (S.get key) Q := by
  apply Database.After.step
  intro o es hexec
  obtain ⟨rfl, rfl⟩ := Prod.mk.inj (Except.ok.inj hexec)
  apply Database.After.ofOption
  intro obj hobj
  obtain ⟨o, ho, hdecode⟩ := Option.bind_eq_some_iff.mp hobj
  exact h o obj ho hdecode

theorem delete_after : postgres.After s (S.delete key admitted) fun _ s' =>
    (∃ o obj, s.object key = some o ∧ S.decode o = some obj) ∧ (∀ r ∈ s.rows, r.poolKey ≠ key) ∧
      s' = Effect.apply (.removeObject key) s := by
  apply Database.After.step
  intro o es hexec
  obtain ⟨rfl, rfl⟩ := Prod.mk.inj (Except.ok.inj hexec)
  change postgres.After s ((Prog.ofOption .objectNotFound ((s.object key).bind S.decode)).bind fun _ =>
    if admitted then send (.deleteObject key) else .throw .forbidden) _
  apply Database.After.bind
  apply Database.After.ofOption
  intro obj hobj
  obtain ⟨o, ho, hdecode⟩ := Option.bind_eq_some_iff.mp hobj
  split
  · apply Database.After.call
    intro r es hexec
    obtain ⟨hfree, rfl⟩ := deleteObject_ok hexec
    exact ⟨⟨o, obj, ho, hdecode⟩, hfree, rfl⟩
  · exact .throw

theorem replace_after {C : T → Prop} {o : Object} {old : T} (ho : s.object key = some o) (hold : S.decode o = some old)
    (hcheck : ∀ new, postgres.After s (check new) fun _ s' => s' = s ∧ C new) :
    postgres.After s (S.replace key obj old admitted check) fun new s' => C new ∧ S.Replaced key obj s new s' := by
  simp only [replace]
  split
  · exact .throw
  rename_i hvalid
  have hupdated : ∃ o' old', s.object key = some o' ∧ S.decode o' = some old' ∧
      S.prepareForUpdate obj old = S.prepareForUpdate obj old' ∧
      S.validateUpdate (keyName key) (S.prepareForUpdate obj old) old' = true :=
    ⟨o, old, ho, hold, rfl, by simpa using hvalid⟩
  split
  · exact .throw
  apply Database.After.bind
  refine (hcheck _).mono ?_
  rintro _ s' ⟨hs', hC⟩
  rw [hs']
  split
  · exact .pure ⟨hC, hupdated, Or.inl rfl⟩
  apply Database.After.step
  intro r es hexec
  obtain ⟨-, rfl⟩ := updateObject_ok hexec
  exact .pure ⟨hC, hupdated, Or.inr rfl⟩

theorem update_checked {C : T → Prop} (hcheck : ∀ new, postgres.After s (check new) fun _ s' => s' = s ∧ C new) :
    postgres.After s (S.update tenant key obj forceAllowCreate admitted check) fun new s' =>
      (forceAllowCreate = true ∧ S.Created key obj s new s') ∨ C new ∧ S.Replaced key obj s new s' := by
  apply Database.After.step
  intro o es hexec
  obtain ⟨rfl, rfl⟩ := Prod.mk.inj (Except.ok.inj hexec)
  cases ho : s.object key with
  | none =>
    cases forceAllowCreate with
    | true => exact create_after.mono fun _ _ h => Or.inl ⟨rfl, h⟩
    | false => exact .throw
  | some o =>
    change postgres.After s ((Prog.ofOption .invalid (S.decode o)).bind fun old =>
      S.replace key obj old admitted check) _
    apply Database.After.bind
    apply Database.After.ofOption
    intro old hold
    exact (replace_after ho hold hcheck).mono fun _ _ h => Or.inr h

theorem update_after (hcheck : ∀ new, postgres.After s (check new) fun _ s' => s' = s) :
    postgres.After s (S.update tenant key obj forceAllowCreate admitted check) fun new s' =>
      (forceAllowCreate = true ∧ S.Created key obj s new s') ∨ S.Replaced key obj s new s' := by
  have hchecked : ∀ new, postgres.After s (check new) fun _ s' => s' = s ∧ True :=
    fun new => (hcheck new).mono fun _ _ h => ⟨h, trivial⟩
  exact (update_checked hchecked).mono fun _ _ h => h.imp id And.right

end Strategy

end Ipam.Registry
