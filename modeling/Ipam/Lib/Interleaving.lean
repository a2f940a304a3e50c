import Ipam.Lib.Transaction

/-!
Transactions at READ COMMITTED over row locks. Every transaction keeps its own effects until it commits, each
statement reads the latest committed state with those effects on top, and a statement waits while another
transaction holds a lock that conflicts with one it needs.
-/

namespace Ipam.Transaction

variable {Stmt : Type} {Res : Stmt → Type} {ε S E L : Type}

structure Txn (Stmt : Type) (Res : Stmt → Type) (ε E L : Type) where
  prog : Prog Stmt Res ε Unit
  log : List E
  held : List L

structure World (Stmt : Type) (Res : Stmt → Type) (ε S E L : Type) where
  committed : S
  txns : List (ℕ × Txn Stmt Res ε E L)

inductive Label (Stmt : Type) (Res : Stmt → Type) (ε : Type) where
  | start (t : ℕ) (p : Prog Stmt Res ε Unit)
  | exec (t : ℕ)
  | commit (t : ℕ)
  | abort (t : ℕ)

namespace World

variable (w : World Stmt Res ε S E L)

def find (t : ℕ) : Option (Txn Stmt Res ε E L) :=
  (w.txns.find? fun x => x.1 == t).map Prod.snd

def set (t : ℕ) (x : Txn Stmt Res ε E L) : World Stmt Res ε S E L :=
  { w with txns := w.txns.map fun y => if y.1 = t then (t, x) else y }

def remove (t : ℕ) : List (ℕ × Txn Stmt Res ε E L) :=
  w.txns.filter fun y => y.1 ≠ t

def blocked (conflict : L → L → Bool) (t : ℕ) (need : List L) : Bool :=
  w.txns.any fun y => y.1 ≠ t && y.2.held.any fun l => need.any (conflict l)

def next (D : Database Stmt Res ε S E L) (conflict : L → L → Bool) :
    Label Stmt Res ε → Option (World Stmt Res ε S E L)
  | .start t p =>
    match w.find t with
    | some _ => none
    | none => some { w with txns := (t, ⟨p, [], []⟩) :: w.txns }
  | .exec t =>
    match w.find t with
    | some ⟨.step q k, log, held⟩ =>
      let seen := D.view log w.committed
      if w.blocked conflict t (D.locks q seen) then none
      else
        match D.exec q seen with
        | .error e => some (w.set t ⟨.throw e, log, held⟩)
        | .ok (r, es) => some (w.set t ⟨k r, log ++ es, held ++ D.locks q seen⟩)
    | _ => none
  | .commit t =>
    match w.find t with
    | some ⟨.pure _, log, _⟩ => some ⟨D.view log w.committed, w.remove t⟩
    | _ => none
  | .abort t =>
    match w.find t with
    | some _ => some { w with txns := w.remove t }
    | none => none

def steps (D : Database Stmt Res ε S E L) (conflict : L → L → Bool)
    (check : World Stmt Res ε S E L → Label Stmt Res ε → Bool) :
    List (Label Stmt Res ε) → World Stmt Res ε S E L → Option (World Stmt Res ε S E L)
  | [], w => some w
  | l :: ls, w => if check w l then (w.next D conflict l).bind (steps D conflict check ls) else none

inductive Moves (D : Database Stmt Res ε S E L) (conflict : L → L → Bool) :
    Label Stmt Res ε → World Stmt Res ε S E L → Prop where
  | start {t : ℕ} (p : Prog Stmt Res ε Unit) (hfind : w.find t = none) :
      Moves D conflict (.start t p) { w with txns := (t, ⟨p, [], []⟩) :: w.txns }
  | fail {t : ℕ} {q : Stmt} {k : Res q → Prog Stmt Res ε Unit} {log : List E} {held : List L} (e : ε)
      (hfind : w.find t = some ⟨.step q k, log, held⟩) :
      Moves D conflict (.exec t) (w.set t ⟨.throw e, log, held⟩)
  | exec {t : ℕ} {q : Stmt} {k : Res q → Prog Stmt Res ε Unit} {log es : List E} {held : List L} {r : Res q}
      (hfind : w.find t = some ⟨.step q k, log, held⟩)
      (hblocked : w.blocked conflict t (D.locks q (D.view log w.committed)) = false)
      (hexec : D.exec q (D.view log w.committed) = .ok (r, es)) :
      Moves D conflict (.exec t) (w.set t ⟨k r, log ++ es, held ++ D.locks q (D.view log w.committed)⟩)
  | commit {t : ℕ} {a : Unit} {log : List E} {held : List L} (hfind : w.find t = some ⟨.pure a, log, held⟩) :
      Moves D conflict (.commit t) ⟨D.view log w.committed, w.remove t⟩
  | abort {t : ℕ} {x : Txn Stmt Res ε E L} (hfind : w.find t = some x) :
      Moves D conflict (.abort t) { w with txns := w.remove t }

theorem moves_of_next {D : Database Stmt Res ε S E L} {conflict : L → L → Bool} {l : Label Stmt Res ε}
    {w' : World Stmt Res ε S E L} (h : w.next D conflict l = some w') : w.Moves D conflict l w' := by
  cases l with
  | start t p =>
    simp only [next] at h
    split at h
    · cases h
    · rename_i hfind
      obtain rfl := Option.some.inj h
      exact .start p hfind
  | exec t =>
    simp only [next] at h
    split at h
    · rename_i q k log held hfind
      split at h
      · cases h
      rename_i hblocked
      split at h
      · obtain rfl := Option.some.inj h
        exact .fail _ hfind
      · rename_i r es hexec
        obtain rfl := Option.some.inj h
        exact .exec hfind (by simpa using hblocked) hexec
    · cases h
  | commit t =>
    simp only [next] at h
    split at h
    · rename_i a log held hfind
      obtain rfl := Option.some.inj h
      exact .commit hfind
    · cases h
  | abort t =>
    simp only [next] at h
    split at h
    · rename_i x hfind
      obtain rfl := Option.some.inj h
      exact .abort hfind
    · cases h

theorem mem_of_find {t : ℕ} {x : Txn Stmt Res ε E L} (h : w.find t = some x) : (t, x) ∈ w.txns := by
  simp only [find, Option.map_eq_some_iff] at h
  obtain ⟨⟨u, y⟩, hy, rfl⟩ := h
  have hu : u = t := by simpa using List.find?_some hy
  exact hu ▸ List.mem_of_find?_eq_some hy

theorem mem_set {t : ℕ} {x : Txn Stmt Res ε E L} {y : ℕ × Txn Stmt Res ε E L}
    (hy : y ∈ (w.set t x).txns) : y = (t, x) ∨ (y ∈ w.txns ∧ y.1 ≠ t) := by
  simp only [set, List.mem_map] at hy
  obtain ⟨z, hz, rfl⟩ := hy
  by_cases h : z.1 = t
  · exact Or.inl (if_pos h)
  · rw [if_neg h]
    exact Or.inr ⟨hz, h⟩

theorem mem_remove {t : ℕ} {y : ℕ × Txn Stmt Res ε E L} (hy : y ∈ w.remove t) : y ∈ w.txns ∧ y.1 ≠ t := by
  simpa [remove] using hy

theorem apart_of_not_blocked {conflict : L → L → Bool} {t : ℕ} {need : List L}
    (h : w.blocked conflict t need = false) {y : ℕ × Txn Stmt Res ε E L} (hy : y ∈ w.txns) (ht : y.1 ≠ t)
    {l m : L} (hl : l ∈ y.2.held) (hm : m ∈ need) : conflict l m = false := by
  simp only [blocked, List.any_eq_false, Bool.and_eq_true, List.any_eq_true, not_and, not_exists] at h
  have := h y hy (by simpa using ht) l hl m hm
  simpa using this

end World

/-- The worlds reached from `init` by steps that meet `guard`, when every transaction runs a program of
`allowed`. -/
inductive Reachable (D : Database Stmt Res ε S E L) (conflict : L → L → Bool)
    (allowed : Prog Stmt Res ε Unit → Prop) (guard : World Stmt Res ε S E L → Label Stmt Res ε → Prop)
    (init : S) : World Stmt Res ε S E L → Prop where
  | start : Reachable D conflict allowed guard init ⟨init, []⟩
  | step {w w' : World Stmt Res ε S E L} {l : Label Stmt Res ε}
      (h : Reachable D conflict allowed guard init w)
      (hallowed : ∀ t p, l = .start t p → allowed p) (hguard : guard w l)
      (hnext : w.next D conflict l = some w') : Reachable D conflict allowed guard init w'

namespace Reachable

variable {D : Database Stmt Res ε S E L} {conflict : L → L → Bool} {allowed : Prog Stmt Res ε Unit → Prop}
  {guard : World Stmt Res ε S E L → Label Stmt Res ε → Prop} {init : S}

theorem steps {check : World Stmt Res ε S E L → Label Stmt Res ε → Bool} {ls : List (Label Stmt Res ε)}
    (hguard : ∀ w, ∀ l ∈ ls, check w l = true → guard w l) (hls : ∀ t p, Label.start t p ∈ ls → allowed p) {w w' : World Stmt Res ε S E L}
    (h : Reachable D conflict allowed guard init w) (hsteps : World.steps D conflict check ls w = some w') :
    Reachable D conflict allowed guard init w' := by
  induction ls generalizing w with
  | nil =>
    obtain rfl := Option.some.inj hsteps
    exact h
  | cons l ls ih =>
    rw [World.steps, Option.ite_none_right_eq_some] at hsteps
    obtain ⟨w'', hnext, hrest⟩ := Option.bind_eq_some_iff.mp hsteps.2
    have hstep : Reachable D conflict allowed guard init w'' := by
      apply Reachable.step h _ (hguard w l List.mem_cons_self hsteps.1) hnext
      rintro t p rfl
      exact hls t p List.mem_cons_self
    exact ih (fun w m hm => hguard w m (List.mem_cons_of_mem _ hm))
      (fun t p hp => hls t p (List.mem_cons_of_mem _ hp)) hstep hrest

theorem exec_alone (hguard : ∀ w t, w.txns.length = 1 → guard w (.exec t)) {p : Prog Stmt Res ε Unit}
    {c s : S} {log : List E} {held : List L} {t : ℕ}
    (h : Reachable D conflict allowed guard init ⟨c, [(t, ⟨p, log, held⟩)]⟩)
    (hrun : D.run p (D.view log c) = .ok ((), s)) :
    ∃ log' held', D.view log' c = s ∧
      Reachable D conflict allowed guard init ⟨c, [(t, ⟨.pure (), log', held'⟩)]⟩ := by
  induction p generalizing log held with
  | pure a => exact ⟨log, held, (Prod.mk.inj (Except.ok.inj hrun)).2, h⟩
  | throw e => cases hrun
  | step q k ih =>
    simp only [Database.run] at hrun
    split at hrun
    · cases hrun
    · rename_i r es hexec
      have hnext : Reachable D conflict allowed guard init
          ⟨c, [(t, ⟨k r, log ++ es, held ++ D.locks q (D.view log c)⟩)]⟩ := by
        apply Reachable.step h (l := .exec t) (by simp) (hguard _ t rfl)
        simp [World.next, World.find, World.blocked, World.set, hexec]
      rw [← D.view_append] at hrun
      exact ih r hnext hrun

theorem run (hexec : ∀ w t, w.txns.length = 1 → guard w (.exec t)) (hstart : ∀ w t p, guard w (.start t p))
    (hcommit : ∀ w t, w.txns.length = 1 → guard w (.commit t)) {p : Prog Stmt Res ε Unit} (hp : allowed p) {c s : S}
    (h : Reachable D conflict allowed guard init ⟨c, []⟩) (hrun : D.run p c = .ok ((), s)) :
    Reachable D conflict allowed guard init ⟨s, []⟩ := by
  have hbegin : Reachable D conflict allowed guard init ⟨c, [(0, ⟨p, [], []⟩)]⟩ := by
    apply Reachable.step h (l := .start 0 p) _ (hstart _ 0 p)
    · simp [World.next, World.find]
    · rintro t q heq
      cases heq
      exact hp
  obtain ⟨log, held, rfl, hend⟩ := hbegin.exec_alone hexec hrun
  apply Reachable.step hend (l := .commit 0) (by simp) (hcommit _ 0 rfl)
  simp [World.next, World.find, World.remove]

theorem runAll (hexec : ∀ w t, w.txns.length = 1 → guard w (.exec t)) (hstart : ∀ w t p, guard w (.start t p))
    (hcommit : ∀ w t, w.txns.length = 1 → guard w (.commit t)) {ps : List (Prog Stmt Res ε Unit)} (hps : ∀ p ∈ ps, allowed p)
    {c s : S} (h : Reachable D conflict allowed guard init ⟨c, []⟩) (hrun : D.runAll ps c = .ok s) :
    Reachable D conflict allowed guard init ⟨s, []⟩ := by
  induction ps generalizing c with
  | nil =>
    obtain rfl := Except.ok.inj hrun
    exact h
  | cons p ps ih =>
    cases hp : D.run p c with
    | error e =>
      simp only [Database.runAll, hp] at hrun
      cases hrun
    | ok r =>
      simp only [Database.runAll, hp, Except.bind] at hrun
      have hnext := h.run hexec hstart hcommit (hps p List.mem_cons_self) hp
      exact ih (fun q hq => hps q (List.mem_cons_of_mem _ hq)) hnext hrun

theorem exists_of_runAll (hexec : ∀ w t, w.txns.length = 1 → guard w (.exec t))
    (hstart : ∀ w t p, guard w (.start t p)) (hcommit : ∀ w t, w.txns.length = 1 → guard w (.commit t)) {ps : List (Prog Stmt Res ε Unit)} (hps : ∀ p ∈ ps, allowed p)
    {f : S → Bool} (h : (D.runAll ps init).map f = .ok true) :
    ∃ w, Reachable D conflict allowed guard init w ∧ f w.committed = true := by
  cases hrun : D.runAll ps init with
  | error e =>
    rw [hrun] at h
    cases h
  | ok s =>
    rw [hrun] at h
    exact ⟨⟨s, []⟩, runAll hexec hstart hcommit hps .start hrun, Except.ok.inj h⟩

theorem exists_of_checked (check : World Stmt Res ε S E L → Label Stmt Res ε → Bool) (ls : List (Label Stmt Res ε))
    (hguard : ∀ w, ∀ l ∈ ls, check w l = true → guard w l) (hls : ∀ t p, Label.start t p ∈ ls → allowed p)
    {f : World Stmt Res ε S E L → Bool} (h : (World.steps D conflict check ls ⟨init, []⟩).map f = some true) :
    ∃ w, Reachable D conflict allowed guard init w ∧ f w = true := by
  obtain ⟨w, hw, hf⟩ := Option.map_eq_some_iff.mp h
  exact ⟨w, steps hguard hls .start hw, hf⟩

theorem exists_world_of_steps (ls : List (Label Stmt Res ε)) (hguard : ∀ w, ∀ l ∈ ls, guard w l)
    (hls : ∀ t p, Label.start t p ∈ ls → allowed p) {f : World Stmt Res ε S E L → Bool}
    (h : (World.steps D conflict (fun _ _ => true) ls ⟨init, []⟩).map f = some true) :
    ∃ w, Reachable D conflict allowed guard init w ∧ f w = true :=
  exists_of_checked _ ls (fun w l hl _ => hguard w l hl) hls h

theorem exists_of_steps {ls : List (Label Stmt Res ε)} (hguard : ∀ w, ∀ l ∈ ls, guard w l)
    (hls : ∀ t p, Label.start t p ∈ ls → allowed p) {f : S → Bool}
    (h : (World.steps D conflict (fun _ _ => true) ls ⟨init, []⟩).map (fun w => f w.committed) = some true) :
    ∃ w, Reachable D conflict allowed guard init w ∧ f w.committed = true :=
  exists_world_of_steps ls hguard hls h

end Reachable

end Ipam.Transaction
