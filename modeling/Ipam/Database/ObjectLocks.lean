import Ipam.Database.RowLocks
import Ipam.Lib.Slots

namespace Ipam.Database

open Transaction

def Lock.keepsObject : Lock → Db → Db → Prop
  | .object k, s, s' => s'.object k = s.object k
  | _, _, _ => True

theorem object_apply {e : Effect} {k : Key} (h : .object k ∉ e.footprint) (s : Db) :
    (e.apply s).object k = s.object k := by
  cases e with
  | putObject k' o =>
    have hne : k ≠ k' := fun heq => h (by simp [Effect.footprint, heq])
    simp only [Db.object, Effect.apply, lookup_put, if_neg hne]
  | removeObject k' =>
    have hne : k ≠ k' := fun heq => h (by simp [Effect.footprint, heq])
    simp only [Db.object, Effect.apply, lookup_remove, if_neg (Ne.symm hne)]
  | _ => rfl

theorem object_putObject (s : Db) (k k' : Key) (o : Object) :
    (Effect.apply (.putObject k o) s).object k' = if k' = k then some o else s.object k' :=
  lookup_put k k' o s.objects

theorem object_removeObject (s : Db) (k k' : Key) :
    (Effect.apply (.removeObject k) s).object k' = if k = k' then none else s.object k' :=
  lookup_remove k' k s.objects

theorem Lock.keepsObject_refl (l : Lock) (s : Db) : l.keepsObject s s := by
  cases l with
  | object k => exact rfl
  | _ => trivial

theorem Lock.keepsObject_trans (l : Lock) (s s' s'' : Db) (h : l.keepsObject s s') (h' : l.keepsObject s' s'') :
    l.keepsObject s s'' := by
  cases l with
  | object k => exact h'.trans h
  | _ => trivial

theorem Lock.keepsObject_apply (l : Lock) (e : Effect) (s : Db) (h : ∀ m ∈ e.footprint, l.conflicts m = false) :
    l.keepsObject s (e.apply s) := by
  cases l with
  | object k =>
    apply object_apply
    intro hk
    simpa [Lock.conflicts] using h _ hk
  | _ => trivial

def objectLocking : Discipline postgres Lock.conflicts where
  footprint := Effect.footprint
  agree := Lock.keepsObject
  evolves _ _ := True
  conflict_comm := Lock.conflicts_comm
  agree_refl := Lock.keepsObject_refl
  agree_trans := Lock.keepsObject_trans
  agree_apply := Lock.keepsObject_apply
  locks_cover := locks_cover
  evolves_refl _ := trivial
  evolves_trans _ _ _ _ _ := trivial

theorem object_respects (k : Key) (e : Effect) (s s' : Db) (h : s.object k = s'.object k) :
    (e.apply s).object k = (e.apply s').object k := by
  cases e with
  | putObject k' o => rw [object_putObject, object_putObject, h]
  | removeObject k' => rw [object_removeObject, object_removeObject, h]
  | _ => exact h

end Ipam.Database
