import Ipam.Lib.Emits

/-!
Notes that statements leave behind. A note is held until its transaction ends and delays nobody; in the stricter
system two transactions do not hold one note at a time. A run that leaves no note while another transaction holds
it is a run of both.
-/

namespace Ipam.Transaction

variable {Stmt : Type} {Res : Stmt → Type} {ε α S E L N : Type}

def Database.noting (D : Database Stmt Res ε S E L) (note : Stmt → List N) : Database Stmt Res ε S E (L ⊕ N) where
  apply := D.apply
  exec := D.exec
  locks q s := (D.locks q s).map .inl ++ (note q).map .inr

def noteConflict [DecidableEq N] (strict : Bool) (conflict : L → L → Bool) : L ⊕ N → L ⊕ N → Bool
  | .inl l, .inl m => conflict l m
  | .inr n, .inr m => strict && n = m
  | _, _ => false

def NotesApart (note : Stmt → List N) (w : World Stmt Res ε S E (L ⊕ N)) : Label Stmt Res ε → Prop
  | .exec t => ∀ q k log held, w.find t = some ⟨.step q k, log, held⟩ →
      ∀ n ∈ note q, ∀ y ∈ w.txns, y.1 ≠ t → .inr n ∉ y.2.held
  | _ => True

variable {D : Database Stmt Res ε S E L} {note : Stmt → List N}

theorem Emits.noting {good : E → Prop} {p : Prog Stmt Res ε α} (h : Emits D good p) :
    Emits (D.noting note) good p := by
  induction p with
  | pure a => trivial
  | throw e => trivial
  | step q k ih =>
    intro s r es hexec
    exact ⟨(h s r es hexec).1, ih r (h s r es hexec).2⟩

section

variable [DecidableEq N] {conflict : L → L → Bool}

theorem blocked_strict {w : World Stmt Res ε S E (L ⊕ N)} {t : ℕ} {need : List L} {notes : List N}
    (hnotes : ∀ n ∈ notes, ∀ y ∈ w.txns, y.1 ≠ t → .inr n ∉ y.2.held)
    (h : w.blocked (noteConflict false conflict) t (need.map .inl ++ notes.map .inr) = false) :
    w.blocked (noteConflict true conflict) t (need.map .inl ++ notes.map .inr) = false := by
  rw [Bool.eq_false_iff]
  intro hblocked
  simp only [World.blocked, List.any_eq_true, Bool.and_eq_true, decide_eq_true_eq] at hblocked
  obtain ⟨y, hy, ht, l, hl, m, hm, hlm⟩ := hblocked
  cases l with
  | inl l =>
    cases m with
    | inl m =>
      have hfree := w.apart_of_not_blocked h hy ht hl hm
      have hlm' : conflict l m = true := hlm
      have hfree' : conflict l m = false := hfree
      rw [hlm'] at hfree'
      cases hfree'
    | inr m => cases hlm
  | inr n =>
    cases m with
    | inl m => cases hlm
    | inr m =>
      have hnm : n = m := by simpa [noteConflict] using hlm
      subst hnm
      have hn : n ∈ notes := by simpa using hm
      exact hnotes n hn y hy ht hl

theorem next_strict_notes {w w' : World Stmt Res ε S E (L ⊕ N)} {l : Label Stmt Res ε} (hapart : NotesApart note w l)
    (h : w.next (D.noting note) (noteConflict false conflict) l = some w') :
    w.next (D.noting note) (noteConflict true conflict) l = some w' := by
  cases l with
  | start t p => exact h
  | commit t => exact h
  | abort t => exact h
  | exec t =>
    simp only [World.next] at h ⊢
    split at h
    · rename_i q k log held hfind
      split at h
      · cases h
      · rename_i hblocked
        have hstrict := blocked_strict (hapart q k log held hfind) (Bool.eq_false_iff.mpr hblocked)
        have hstrict' : w.blocked (noteConflict true conflict) t
            ((D.noting note).locks q ((D.noting note).view log w.committed)) = false := hstrict
        simp only [hstrict', Bool.false_eq_true, if_false]
        exact h
    · cases h

theorem Reachable.strict {allowed : Prog Stmt Res ε Unit → Prop} {init : S} {w : World Stmt Res ε S E (L ⊕ N)}
    (h : Reachable (D.noting note) (noteConflict false conflict) allowed (NotesApart note) init w) :
    Reachable (D.noting note) (noteConflict true conflict) allowed (fun _ _ => True) init w := by
  induction h with
  | start => exact .start
  | step _ hallowed hguard hnext ih => exact .step ih hallowed trivial (next_strict_notes hguard hnext)

def Discipline.noting (T : Discipline D conflict) (note : Stmt → List N) (strict : Bool) :
    Discipline (D.noting note) (noteConflict strict conflict) where
  footprint e := (T.footprint e).map .inl
  agree
    | .inl l => T.agree l
    | .inr _ => fun _ _ => True
  evolves := T.evolves
  conflict_comm l m := by
    cases l with
    | inl l =>
      cases m with
      | inl m => exact T.conflict_comm l m
      | inr m => rfl
    | inr l =>
      cases m with
      | inl m => rfl
      | inr m => simp [noteConflict, eq_comm]
  agree_refl l s := by
    cases l with
    | inl l => exact T.agree_refl l s
    | inr n => trivial
  agree_trans l s s' s'' h h' := by
    cases l with
    | inl l => exact T.agree_trans l s s' s'' h h'
    | inr n => trivial
  agree_apply l e s h := by
    cases l with
    | inl l => exact T.agree_apply l e s fun m hm => h (.inl m) (List.mem_map_of_mem hm)
    | inr n => trivial
  locks_cover q s r es hexec e he l hl := by
    obtain ⟨m, hm, rfl⟩ := List.mem_map.mp hl
    exact List.mem_append_left _ (List.mem_map_of_mem (T.locks_cover q s r es hexec e he m hm))
  evolves_refl := T.evolves_refl
  evolves_trans := T.evolves_trans

end

end Ipam.Transaction
