import Ipam.Allocator.Prefix
import Ipam.Watch.Changelog

/-!
The bytes in the data column of `ipam_objects`. The store writes what its codec makes of an object that carries the
version of the row; the allocator writes the bytes it is given, and takes the version from the sequence as it writes.
-/

namespace Ipam.Storage

open Allocation Allocator Database
open Watch (EventType)

structure Codec (Obj Bytes : Type) where
  encode : Obj → Bytes
  decode : Bytes → Option Obj
  setVersion : ℕ → Obj → Obj
  decode_encode : ∀ o, decode (encode o) = some o
  setVersion_setVersion : ∀ v w o, setVersion v (setVersion w o) = setVersion v o

structure ObjectRow (Bytes : Type) where
  version : ℕ
  data : Bytes
  deriving DecidableEq, Repr

structure LogRow (Bytes : Type) where
  key : Key
  version : ℕ
  eventType : EventType
  data : Bytes
  deriving DecidableEq, Repr

structure Store (Bytes : Type) where
  objects : Key → Option (ObjectRow Bytes)
  changelog : List (LogRow Bytes)
  sequence : ℕ

inductive StoreError where
  | keyExists
  | keyNotFound
  | undecodable
  | precondition
  | refused
  deriving DecidableEq, Repr

section

variable {Bytes : Type}

def Store.empty : Store Bytes :=
  ⟨fun _ => none, [], 0⟩

def Store.write (s : Store Bytes) (key : Key) (eventType : EventType) (data : Bytes) : Store Bytes where
  objects := Function.update s.objects key (some ⟨s.sequence + 1, data⟩)
  changelog := s.changelog ++ [⟨key, s.sequence + 1, eventType, data⟩]
  sequence := s.sequence + 1

def Store.erase (s : Store Bytes) (key : Key) (data : Bytes) : Store Bytes where
  objects := Function.update s.objects key none
  changelog := s.changelog ++ [⟨key, s.sequence + 1, .deleted, data⟩]
  sequence := s.sequence + 1

abbrev Outcome (Bytes α : Type) := Except StoreError α × Store Bytes

def insertObject (key : Key) (data : Bytes) (s : Store Bytes) : Outcome Bytes ℕ :=
  match s.objects key with
  -- the default of the version column is evaluated before the key is found to be taken
  | some _ => (.error .keyExists, { s with sequence := s.sequence + 1 })
  | none => (.ok (s.sequence + 1), s.write key .added data)

def updateObject (key : Key) (data : Bytes) (s : Store Bytes) : Outcome Bytes ℕ :=
  match s.objects key with
  | none => (.error .keyNotFound, s)
  | some _ => (.ok (s.sequence + 1), s.write key .modified data)

def deleteObject (key : Key) (s : Store Bytes) : Outcome Bytes ℕ :=
  match s.objects key with
  | none => (.ok 0, s)
  | some row => (.ok (s.sequence + 1), s.erase key row.data)

/-- `marshal` is `json.Marshal` of a pool with its metadata. -/
def persistPoolCapacity {Meta : Type} (marshal : Meta → IPPool → Bytes) (key : Key) (metadata : Meta) (pool : IPPool)
    (parents : List IPNet) (consumed : ℕ) (s : Store Bytes) : Outcome Bytes ℕ :=
  updateObject key (marshal metadata (setPoolCapacityStatus pool parents consumed)) s

variable {Obj : Type} (c : Codec Obj Bytes)

def Codec.stamped (o : Obj) (s : Store Bytes) : Bytes :=
  c.encode (c.setVersion (s.sequence + 1) o)

def create (key : Key) (obj : Obj) (s : Store Bytes) : Outcome Bytes ℕ :=
  match s.objects key with
  | some _ => (.error .keyExists, { s with sequence := s.sequence + 1 })
  | none => (.ok (s.sequence + 1), s.write key .added (c.stamped obj s))

def delete (key : Key) (preconditions : Obj → Bool) (s : Store Bytes) : Outcome Bytes ℕ :=
  match s.objects key with
  | none => (.error .keyNotFound, s)
  | some row =>
    match c.decode row.data with
    | none => (.error .undecodable, s)
    | some existing =>
      if preconditions existing then (.ok row.version, s.erase key row.data) else (.error .precondition, s)

variable [DecidableEq Bytes]

/-- `zero` is the zero value of the object's type if a missing object is ignored. -/
def guaranteedUpdate (key : Key) (zero : Option Obj) (preconditions : Obj → Bool) (tryUpdate : Obj → Option Obj)
    (s : Store Bytes) : Outcome Bytes (Bytes × ℕ) :=
  match s.objects key with
  | none =>
    match zero with
    | none => (.error .keyNotFound, s)
    | some existing =>
      if preconditions existing then
        match tryUpdate existing with
        | none => (.error .refused, s)
        | some ret => (.ok (c.stamped ret s, s.sequence + 1), s.write key .added (c.stamped ret s))
      else (.error .precondition, s)
  | some row =>
    match c.decode row.data with
    | none => (.error .undecodable, s)
    | some decoded =>
      let existing := c.setVersion row.version decoded
      if preconditions existing then
        match tryUpdate existing with
        | none => (.error .refused, s)
        | some ret =>
          -- no write if the contents are the same
          if row.data = c.encode ret then (.ok (row.data, row.version), s)
          else (.ok (c.stamped ret s, s.sequence + 1), s.write key .modified (c.stamped ret s))
      else (.error .precondition, s)

end

inductive Op (Obj Bytes Meta : Type) where
  | create (key : Key) (obj : Obj)
  | guaranteedUpdate (key : Key) (zero : Option Obj) (preconditions : Obj → Bool) (tryUpdate : Obj → Option Obj)
  | delete (key : Key) (preconditions : Obj → Bool)
  | insertObject (key : Key) (data : Bytes)
  | updateObject (key : Key) (data : Bytes)
  | persistPoolCapacity (key : Key) (metadata : Meta) (pool : IPPool) (parents : List IPNet) (consumed : ℕ)
  | deleteObject (key : Key)

section

variable {Obj Bytes Meta : Type} [DecidableEq Bytes] (c : Codec Obj Bytes) (marshal : Meta → IPPool → Bytes)

def Op.apply : Op Obj Bytes Meta → Store Bytes → Store Bytes
  | .create key obj, s => (Storage.create c key obj s).2
  | .guaranteedUpdate key zero preconditions tryUpdate, s =>
    (Storage.guaranteedUpdate c key zero preconditions tryUpdate s).2
  | .delete key preconditions, s => (Storage.delete c key preconditions s).2
  | .insertObject key data, s => (Storage.insertObject key data s).2
  | .updateObject key data, s => (Storage.updateObject key data s).2
  | .persistPoolCapacity key metadata pool parents consumed, s =>
    (Storage.persistPoolCapacity marshal key metadata pool parents consumed s).2
  | .deleteObject key, s => (Storage.deleteObject key s).2

def after : List (Op Obj Bytes Meta) → Store Bytes
  | [] => .empty
  | op :: earlier => op.apply c marshal (after earlier)

def lastWrite (key : Key) : List (Op Obj Bytes Meta) → Option (Op Obj Bytes Meta × Store Bytes)
  | [] => none
  | op :: earlier =>
    if (op.apply c marshal (after c marshal earlier)).objects key = (after c marshal earlier).objects key then
      lastWrite key earlier
    else some (op, after c marshal earlier)

def Carries (version : ℕ) (data : Bytes) : Prop :=
  c.decode data = none ∨ ∃ o, data = c.encode (c.setVersion version o)

def Op.Stamps (s : Store Bytes) : Op Obj Bytes Meta → Prop
  | .insertObject _ data => Carries c (s.sequence + 1) data
  | .updateObject _ data => Carries c (s.sequence + 1) data
  | .persistPoolCapacity _ metadata pool parents consumed =>
    Carries c (s.sequence + 1) (marshal metadata (setPoolCapacityStatus pool parents consumed))
  | _ => True

variable {c marshal}

omit [DecidableEq Bytes] in
theorem write_objects {s : Store Bytes} {key k : Key} {eventType : EventType} {data : Bytes} {row : ObjectRow Bytes}
    (h : (s.write k eventType data).objects key = some row) (hnew : s.objects key ≠ some row) :
    row = ⟨s.sequence + 1, data⟩ := by
  simp only [Store.write, Function.update_apply] at h
  split at h
  · exact (Option.some.inj h).symm
  · exact absurd h hnew

omit [DecidableEq Bytes] in
theorem erase_objects {s : Store Bytes} {key k : Key} {data : Bytes} {row : ObjectRow Bytes}
    (h : (s.erase k data).objects key = some row) : s.objects key = some row := by
  simp only [Store.erase, Function.update_apply] at h
  split at h
  · cases h
  · exact h

theorem guaranteedUpdate_writes (key : Key) (zero : Option Obj) (preconditions : Obj → Bool)
    (tryUpdate : Obj → Option Obj) (s : Store Bytes) :
    (guaranteedUpdate c key zero preconditions tryUpdate s).2 = s ∨ ∃ eventType ret,
      (guaranteedUpdate c key zero preconditions tryUpdate s).2 = s.write key eventType (c.stamped ret s) := by
  simp only [guaranteedUpdate]
  cases s.objects key with
  | none =>
    cases zero with
    | none => exact .inl rfl
    | some existing =>
      dsimp only
      split
      · cases tryUpdate existing with
        | none => exact .inl rfl
        | some ret => exact .inr ⟨_, ret, rfl⟩
      · exact .inl rfl
  | some row =>
    dsimp only
    cases c.decode row.data with
    | none => exact .inl rfl
    | some decoded =>
      dsimp only
      split
      · cases tryUpdate (c.setVersion row.version decoded) with
        | none => exact .inl rfl
        | some ret =>
          dsimp only
          split
          · exact .inl rfl
          · exact .inr ⟨_, ret, rfl⟩
      · exact .inl rfl

omit [DecidableEq Bytes] in
theorem delete_erases (key : Key) (preconditions : Obj → Bool) (s : Store Bytes) :
    (delete c key preconditions s).2 = s ∨ ∃ data, (delete c key preconditions s).2 = s.erase key data := by
  simp only [delete]
  cases s.objects key with
  | none => exact .inl rfl
  | some row =>
    dsimp only
    cases c.decode row.data with
    | none => exact .inl rfl
    | some existing =>
      dsimp only
      split
      · exact .inr ⟨_, rfl⟩
      · exact .inl rfl

theorem apply_carries {op : Op Obj Bytes Meta} {s : Store Bytes} {key : Key} {row : ObjectRow Bytes}
    (h : (op.apply c marshal s).objects key = some row) (hnew : s.objects key ≠ some row) :
    Carries c row.version row.data ↔ op.Stamps c marshal s := by
  have hstore {k : Key} {eventType : EventType} {o : Obj}
      (hw : (s.write k eventType (c.stamped o s)).objects key = some row) : Carries c row.version row.data := by
    rw [write_objects hw hnew]
    exact .inr ⟨o, rfl⟩
  cases op with
  | create k obj =>
    simp only [Op.apply, create] at h
    split at h
    · exact absurd h hnew
    · exact iff_of_true (hstore h) trivial
  | guaranteedUpdate k zero preconditions tryUpdate =>
    simp only [Op.apply] at h
    obtain hsame | ⟨eventType, ret, hwrite⟩ := guaranteedUpdate_writes (c := c) k zero preconditions tryUpdate s
    · rw [hsame] at h
      exact absurd h hnew
    · rw [hwrite] at h
      exact iff_of_true (hstore h) trivial
  | delete k preconditions =>
    simp only [Op.apply] at h
    obtain hsame | ⟨data, herase⟩ := delete_erases (c := c) k preconditions s
    · rw [hsame] at h
      exact absurd h hnew
    · rw [herase] at h
      exact absurd (erase_objects h) hnew
  | insertObject k data =>
    simp only [Op.apply, insertObject] at h
    split at h
    · exact absurd h hnew
    · rw [write_objects h hnew]
      rfl
  | updateObject k data =>
    simp only [Op.apply, updateObject] at h
    split at h
    · exact absurd h hnew
    · rw [write_objects h hnew]
      rfl
  | persistPoolCapacity k metadata pool parents consumed =>
    simp only [Op.apply, persistPoolCapacity, updateObject] at h
    split at h
    · exact absurd h hnew
    · rw [write_objects h hnew]
      rfl
  | deleteObject k =>
    simp only [Op.apply, deleteObject] at h
    split at h
    · exact absurd h hnew
    · exact absurd (erase_objects h) hnew

theorem carries_iff_lastWrite {key : Key} {row : ObjectRow Bytes} (ops : List (Op Obj Bytes Meta))
    (h : (after c marshal ops).objects key = some row) :
    Carries c row.version row.data ↔
      ∃ op s, lastWrite c marshal key ops = some (op, s) ∧ op.Stamps c marshal s := by
  induction ops with
  | nil => cases h
  | cons op earlier ih =>
    simp only [lastWrite]
    by_cases hsame : (op.apply c marshal (after c marshal earlier)).objects key = (after c marshal earlier).objects key
    · rw [if_pos hsame]
      exact ih (hsame ▸ h)
    · rw [if_neg hsame]
      have hnew : (after c marshal earlier).objects key ≠ some row := fun hold => hsame (h.trans hold.symm)
      rw [apply_carries h hnew]
      constructor
      · exact fun hstamps => ⟨op, _, rfl, hstamps⟩
      · rintro ⟨op', s, heq, hstamps⟩
        obtain ⟨rfl, rfl⟩ := Prod.mk.inj (Option.some.inj heq)
        exact hstamps

theorem guaranteedUpdate_identity {s : Store Bytes} {key : Key} {row : ObjectRow Bytes} (h : s.objects key = some row) :
    (∀ zero preconditions, (guaranteedUpdate c key zero preconditions some s).2 = s) ↔
      Carries c row.version row.data := by
  constructor
  · intro hsilent
    have hs := hsilent none fun _ => true
    simp only [guaranteedUpdate, h] at hs
    cases hdecode : c.decode row.data with
    | none => exact .inl hdecode
    | some decoded =>
      simp only [hdecode, if_true] at hs
      split at hs
      · rename_i hdata
        exact .inr ⟨decoded, hdata⟩
      · have hlog := congrArg (fun s => s.changelog.length) hs
        simp [Store.write] at hlog
  · intro hcarries zero preconditions
    simp only [guaranteedUpdate, h]
    obtain hnone | ⟨o, hdata⟩ := hcarries
    · rw [hnone]
    · have hdecode : c.decode row.data = some (c.setVersion row.version o) := by
        rw [hdata]
        exact c.decode_encode _
      simp only [hdecode, c.setVersion_setVersion]
      split
      · rfl
      · rfl

/-- After any operations, an update that returns its input writes nothing if and only if the last write of the object
was the store's own, or the allocator's bytes carried the version they were about to get. -/
theorem identityUpdate_silent_iff {key : Key} {row : ObjectRow Bytes} (ops : List (Op Obj Bytes Meta))
    (h : (after c marshal ops).objects key = some row) :
    (∀ zero preconditions, (guaranteedUpdate c key zero preconditions some (after c marshal ops)).2 =
        after c marshal ops) ↔
      ∃ op s, lastWrite c marshal key ops = some (op, s) ∧ op.Stamps c marshal s :=
  (guaranteedUpdate_identity h).trans (carries_iff_lastWrite ops h)

end

structure Doc where
  resourceVersion : ℕ
  spec : ℕ
  deriving DecidableEq, Repr

def lineCodec : Codec Doc (List ℕ) where
  encode o := [o.resourceVersion, o.spec, 10]
  decode
    | [v, n] => some ⟨v, n⟩
    | [v, n, 10] => some ⟨v, n⟩
    | _ => none
  setVersion v o := { o with resourceVersion := v }
  decode_encode _ := rfl
  setVersion_setVersion _ _ _ := rfl

def noMarshal : Unit → IPPool → List ℕ := fun _ _ => []

def docKey : Key :=
  .object "infra" .ipclaims "default" "web"

def docCreated : List (Op Doc (List ℕ) Unit) :=
  [.create docKey ⟨0, 5⟩]

theorem identityUpdate_silent_created :
    (after lineCodec noMarshal docCreated).objects docKey = some ⟨1, [1, 5, 10]⟩ ∧ ∀ zero preconditions,
      (guaranteedUpdate lineCodec docKey zero preconditions some (after lineCodec noMarshal docCreated)).2 =
        after lineCodec noMarshal docCreated := by
  have hrow : (after lineCodec noMarshal docCreated).objects docKey = some ⟨1, [1, 5, 10]⟩ := by decide
  refine ⟨hrow, (identityUpdate_silent_iff docCreated hrow).mpr ?_⟩
  exact ⟨.create docKey ⟨0, 5⟩, .empty, rfl, trivial⟩

/-- The allocator inserts the codec's encoding of a new object, which carries no version; the update that changes
nothing gives it one. -/
theorem identityUpdate_rewrites :
    let s := after lineCodec noMarshal [.insertObject docKey (lineCodec.encode ⟨0, 5⟩)]
    let s' := (guaranteedUpdate lineCodec docKey none (fun _ => true) some s).2
    s.objects docKey = some ⟨1, [0, 5, 10]⟩ ∧ s'.objects docKey = some ⟨2, [2, 5, 10]⟩ ∧ s.changelog.length = 1 ∧
      s'.changelog.length = 2 := by
  decide

end Ipam.Storage
