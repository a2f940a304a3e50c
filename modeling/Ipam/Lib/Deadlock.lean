import Ipam.Lib.Interleaving
import Mathlib.Logic.Relation

/-!
Deadlock over a set of locks. One lock of the set is its key: a transaction that holds the key may take any other
lock of the set. A few statements, the entries, take a lock of the set without the key. If no other transaction
holds a lock of the set whenever an entry runs, at most one transaction holds such a lock, and no transactions
wait for one another in a circle.
-/

namespace Ipam.Transaction

variable {Stmt : Type} {Res : Stmt → Type} {ε α β S E L : Type}

namespace World

variable (w : World Stmt Res ε S E L)

def heldBy (t : ℕ) : List L :=
  match w.find t with
  | some x => x.held
  | none => []

def neededBy (D : Database Stmt Res ε S E L) (t : ℕ) : List L :=
  match w.find t with
  | some ⟨.step q _, log, _⟩ => D.locks q (D.view log w.committed)
  | _ => []

def waits (D : Database Stmt Res ε S E L) (conflict : L → L → Bool) (mine : L → Bool) (t u : ℕ) : Bool :=
  t ≠ u && (w.heldBy u).any fun l => (w.neededBy D t).any fun m => mine l && mine m && conflict l m

def Deadlocked (D : Database Stmt Res ε S E L) (conflict : L → L → Bool) (mine : L → Bool) : Prop :=
  ∃ t, Relation.TransGen (fun t u => w.waits D conflict mine t u = true) t t

def Alone (mine : L → Bool) : Prop :=
  ∀ y ∈ w.txns, ∀ z ∈ w.txns, (∃ l ∈ y.2.held, mine l = true) → (∃ m ∈ z.2.held, mine m = true) → y.1 = z.1

theorem exists_of_heldBy {t : ℕ} {l : L} (h : l ∈ w.heldBy t) : ∃ y ∈ w.txns, y.1 = t ∧ l ∈ y.2.held := by
  unfold heldBy at h
  split at h
  · rename_i x hfind
    exact ⟨(t, x), w.mem_of_find hfind, rfl, h⟩
  · simp at h

variable {w} {D : Database Stmt Res ε S E L} {conflict : L → L → Bool} {mine : L → Bool}

theorem exists_of_waits {t u : ℕ} (h : w.waits D conflict mine t u = true) :
    t ≠ u ∧ ∃ y ∈ w.txns, y.1 = u ∧ ∃ l ∈ y.2.held, mine l = true := by
  simp only [waits, Bool.and_eq_true, decide_eq_true_eq, List.any_eq_true] at h
  obtain ⟨hne, l, hl, m, -, ⟨hmine, -⟩, -⟩ := h
  obtain ⟨y, hy, hyu, hly⟩ := w.exists_of_heldBy hl
  exact ⟨hne, y, hy, hyu, l, hly, hmine⟩

theorem deadlocked_of_waits {t u : ℕ} (h : (w.waits D conflict mine t u && w.waits D conflict mine u t) = true) :
    w.Deadlocked D conflict mine := by
  rw [Bool.and_eq_true] at h
  exact ⟨t, .tail (.single h.1) h.2⟩

theorem Alone.not_deadlocked (h : w.Alone mine) : ¬ w.Deadlocked D conflict mine := by
  rintro ⟨t, ht⟩
  have hfirst : ∃ u, w.waits D conflict mine t u = true := by
    obtain ⟨u, hu, -⟩ := Relation.TransGen.head'_iff.mp ht
    exact ⟨u, hu⟩
  have hlast : ∃ u, w.waits D conflict mine u t = true := by
    obtain ⟨u, -, hu⟩ := Relation.TransGen.tail'_iff.mp ht
    exact ⟨u, hu⟩
  obtain ⟨u, hu⟩ := hfirst
  obtain ⟨v, hv⟩ := hlast
  obtain ⟨hne, y, hy, rfl, hholdsU⟩ := exists_of_waits hu
  obtain ⟨-, z, hz, rfl, hholdsT⟩ := exists_of_waits hv
  exact hne (h z hz y hy hholdsT hholdsU)

end World

def Enters (D : Database Stmt Res ε S E L) (mine : L → Bool) (key : L) (entry : Stmt → Bool) :
    Prog Stmt Res ε α → Prop
  | .pure _ => True
  | .throw _ => True
  | .step q k => (entry q = true ∨ ∀ s, ∀ l ∈ D.locks q s, mine l = false) ∧
    ∀ s r es, D.exec q s = .ok (r, es) → key ∈ D.locks q s ∨ Enters D mine key entry (k r)

namespace Enters

variable {D : Database Stmt Res ε S E L} {mine : L → Bool} {key : L} {entry : Stmt → Bool}

theorem bind {p : Prog Stmt Res ε α} {f : α → Prog Stmt Res ε β} (hp : Enters D mine key entry p)
    (hf : ∀ a, Enters D mine key entry (f a)) : Enters D mine key entry (p >>= f) := by
  induction p with
  | pure a => exact hf a
  | throw e => trivial
  | step q k ih =>
    refine ⟨hp.1, ?_⟩
    intro s r es hexec
    exact (hp.2 s r es hexec).imp id (ih r)

theorem ofOption (e : ε) (o : Option α) : Enters D mine key entry (Prog.ofOption e o : Prog Stmt Res ε α) := by
  cases o <;> trivial

theorem ofExcept {γ : Type} (e : γ → ε) (o : Except γ α) :
    Enters D mine key entry (Prog.ofExcept e o : Prog Stmt Res ε α) := by
  cases o <;> trivial

end Enters

def EntersAlone (mine : L → Bool) (key : L) (entry : Stmt → Bool) (w : World Stmt Res ε S E L) :
    Label Stmt Res ε → Prop
  | .exec t => ∀ q k log held, w.find t = some ⟨.step q k, log, held⟩ → entry q = true → key ∉ held →
    ∀ y ∈ w.txns, y.1 ≠ t → ∀ l ∈ y.2.held, mine l = false
  | _ => True

section

variable {D : Database Stmt Res ε S E L} {conflict : L → L → Bool} {mine : L → Bool} {key : L}
  {entry : Stmt → Bool} {w : World Stmt Res ε S E L}

theorem World.Alone.others (h : w.Alone mine) {t : ℕ} {x : Txn Stmt Res ε E L} (hfind : w.find t = some x)
    (hheld : ∃ l ∈ x.held, mine l = true) : ∀ y ∈ w.txns, y.1 ≠ t → ∀ l ∈ y.2.held, mine l = false := by
  intro y hy hyt l hl
  by_contra hmine
  exact hyt (h y hy _ (w.mem_of_find hfind) ⟨l, hl, by simpa using hmine⟩ hheld)

theorem World.Alone.set (h : w.Alone mine) {t : ℕ} {x : Txn Stmt Res ε E L}
    (hx : (∀ y ∈ w.txns, y.1 ≠ t → ∀ l ∈ y.2.held, mine l = false) ∨ ∀ l ∈ x.held, mine l = false) :
    (w.set t x).Alone mine := by
  have hother : ∀ y ∈ w.txns, y.1 ≠ t → (∃ l ∈ y.2.held, mine l = true) → (∃ m ∈ x.held, mine m = true) → False := by
    rintro y hy hyt ⟨l, hl, hmine⟩ ⟨m, hm, hminem⟩
    cases hx with
    | inl halone => simp [halone y hy hyt l hl] at hmine
    | inr hnone => simp [hnone m hm] at hminem
  intro y hy z hz hhy hhz
  rcases w.mem_set hy with rfl | ⟨hy, hyt⟩
  · rcases w.mem_set hz with rfl | ⟨hz, hzt⟩
    · rfl
    · exact (hother z hz hzt hhz hhy).elim
  · rcases w.mem_set hz with rfl | ⟨hz, hzt⟩
    · exact (hother y hy hyt hhy hhz).elim
    · exact h y hy z hz hhy hhz

def Entered (D : Database Stmt Res ε S E L) (mine : L → Bool) (key : L) (entry : Stmt → Bool)
    (x : Txn Stmt Res ε E L) : Prop :=
  key ∈ x.held ∨ Enters D mine key entry x.prog

theorem Entered.exec {q : Stmt} {k : Res q → Prog Stmt Res ε Unit} {log es : List E} {held : List L} {s : S}
    {r : Res q} (h : Entered D mine key entry ⟨.step q k, log, held⟩) (hexec : D.exec q s = .ok (r, es)) :
    Entered D mine key entry ⟨k r, log ++ es, held ++ D.locks q s⟩ := by
  cases h with
  | inl hkey => exact .inl (List.mem_append_left _ hkey)
  | inr hprog => exact (hprog.2 s r es hexec).imp (List.mem_append_right _) id

theorem World.Alone.exec (h : w.Alone mine) (hkey : mine key = true) {t : ℕ} {q : Stmt}
    {k : Res q → Prog Stmt Res ε Unit} {log : List E} {held : List L}
    (hfind : w.find t = some ⟨.step q k, log, held⟩) (hx : Entered D mine key entry ⟨.step q k, log, held⟩)
    (hguard : EntersAlone mine key entry w (.exec t)) (p : Prog Stmt Res ε Unit) (log' : List E) (s : S) :
    (w.set t ⟨p, log', held ++ D.locks q s⟩).Alone mine := by
  by_cases hheld : ∃ l ∈ held, mine l = true
  · exact h.set (.inl (h.others hfind hheld))
  have hnokey : key ∉ held := fun hk => hheld ⟨key, hk, hkey⟩
  cases hx.resolve_left hnokey |>.1 with
  | inl hentry => exact h.set (.inl (hguard q k log held hfind hentry hnokey))
  | inr hnone =>
    apply h.set
    right
    intro l hl
    cases List.mem_append.mp hl with
    | inl hl =>
      by_contra hmine
      exact hheld ⟨l, hl, by simpa using hmine⟩
    | inr hl => exact hnone s l hl

theorem World.Alone.sub {w' : World Stmt Res ε S E L} (h : w.Alone mine) (hsub : ∀ y ∈ w'.txns, y ∈ w.txns) :
    w'.Alone mine :=
  fun y hy z hz => h y (hsub y hy) z (hsub z hz)

theorem Reachable.alone {allowed : Prog Stmt Res ε Unit → Prop} {init : S} (hkey : mine key = true)
    (hallowed : ∀ p, allowed p → Enters D mine key entry p)
    (h : Reachable D conflict allowed (EntersAlone mine key entry) init w) : w.Alone mine := by
  suffices hinv : (∀ y ∈ w.txns, Entered D mine key entry y.2) ∧ w.Alone mine from hinv.2
  induction h with
  | start => exact ⟨by simp, by intro y hy; simp at hy⟩
  | @step w w' l _ hl hguard hnext ih =>
    obtain ⟨hprogs, halone⟩ := ih
    cases w.moves_of_next hnext with
    | @start t p _ =>
      constructor
      · intro y hy
        cases List.mem_cons.mp hy with
        | inl heq => exact heq ▸ .inr (hallowed p (hl t p rfl))
        | inr hy => exact hprogs y hy
      · intro y hy z hz hhy hhz
        cases List.mem_cons.mp hy with
        | inl heq => simp [heq] at hhy
        | inr hy =>
          cases List.mem_cons.mp hz with
          | inl heq => simp [heq] at hhz
          | inr hz => exact halone y hy z hz hhy hhz
    | @fail t q k log held e hfind =>
      have hx := hprogs _ (w.mem_of_find hfind)
      constructor
      · intro y hy
        rcases w.mem_set hy with rfl | ⟨hy, -⟩
        · exact hx.imp id fun _ => trivial
        · exact hprogs y hy
      · apply halone.set
        by_cases hheld : ∃ l ∈ held, mine l = true
        · exact .inl (halone.others hfind hheld)
        · exact .inr fun l hl => by simpa using fun hmine => hheld ⟨l, hl, hmine⟩
    | exec hfind _ hexec =>
      have hx := hprogs _ (w.mem_of_find hfind)
      constructor
      · intro y hy
        rcases w.mem_set hy with rfl | ⟨hy, -⟩
        · exact Entered.exec hx hexec
        · exact hprogs y hy
      · exact halone.exec hkey hfind hx hguard _ _ _
    | commit _ => exact ⟨fun y hy => hprogs y (w.mem_remove hy).1, halone.sub fun y hy => (w.mem_remove hy).1⟩
    | abort _ => exact ⟨fun y hy => hprogs y (w.mem_remove hy).1, halone.sub fun y hy => (w.mem_remove hy).1⟩

end

end Ipam.Transaction
