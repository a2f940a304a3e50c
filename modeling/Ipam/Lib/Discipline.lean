import Ipam.Lib.Interleaving

/-!
The invariant rule for interleaved transactions. Locks protect what they name. Every commit moves the state along
a preorder, and a commit made without one lock, the guard, moves it along a second one.
-/

namespace Ipam.Transaction

variable {Stmt : Type} {Res : Stmt → Type} {ε S E L : Type}

/-- How locks protect the committed state: an effect leaves alone what a lock protects, unless its statement
takes a lock that conflicts with it. `evolves` is the preorder that commits follow. -/
structure Discipline (D : Database Stmt Res ε S E L) (conflict : L → L → Bool) where
  footprint : E → List L
  agree : L → S → S → Prop
  evolves : S → S → Prop
  conflict_comm : ∀ l m, conflict l m = conflict m l
  agree_refl : ∀ l s, agree l s s
  agree_trans : ∀ l s s' s'', agree l s s' → agree l s' s'' → agree l s s''
  agree_apply : ∀ l e s, (∀ m ∈ footprint e, conflict l m = false) → agree l s (D.apply e s)
  locks_cover : ∀ q s r es, D.exec q s = .ok (r, es) → ∀ e ∈ es, ∀ l ∈ footprint e, l ∈ D.locks q s
  evolves_refl : ∀ s, evolves s s
  evolves_trans : ∀ s s' s'', evolves s s' → evolves s' s'' → evolves s s''

namespace Discipline

variable {D : Database Stmt Res ε S E L} {conflict : L → L → Bool} (T : Discipline D conflict)
variable (I : S → Prop) (guard : L) (R : S → S → Prop)

structure Others (held : List L) (c c' : S) : Prop where
  inv : I c'
  agree : ∀ l ∈ held, T.agree l c c'
  frozen : guard ∈ held → R c c'
  evolves : T.evolves c c'

/-- What a transaction owes at its commit: the invariant, the guard lock or what the guard protects, and a state
that the present one may evolve to. -/
def Commits (log : List E) (held : List L) (c : S) : Prop :=
  ∀ c', T.Others I guard R held c c' →
    I (D.view log c') ∧ (guard ∈ held ∨ R c' (D.view log c')) ∧ T.evolves c' (D.view log c')

def Safe (p : Prog Stmt Res ε Unit) (log : List E) (held : List L) (c : S) : Prop :=
  D.wp (T.Others I guard R) (fun _ log held c => T.Commits I guard R log held c) (fun _ _ _ _ => True) p
    log held c

variable {I guard R}

theorem Others.refl [Std.Refl R] {held : List L} {c : S} (h : I c) : T.Others I guard R held c c :=
  ⟨h, fun l _ => T.agree_refl l c, fun _ => Std.Refl.refl c, T.evolves_refl c⟩

theorem Others.trans [IsTrans S R] {held : List L} {c c' c'' : S} (h : T.Others I guard R held c c')
    (h' : T.Others I guard R held c' c'') : T.Others I guard R held c c'' :=
  ⟨h'.inv, fun l hl => T.agree_trans l c c' c'' (h.agree l hl) (h'.agree l hl),
    fun hg => IsTrans.trans _ _ _ (h.frozen hg) (h'.frozen hg), T.evolves_trans c c' c'' h.evolves h'.evolves⟩

theorem Safe.stable [IsTrans S R] {p : Prog Stmt Res ε Unit} {log : List E} {held : List L} {c c' : S}
    (h : T.Safe I guard R p log held c) (hc : T.Others I guard R held c c') :
    T.Safe I guard R p log held c' := by
  cases p with
  | pure a => exact fun c'' hc'' => h c'' (Others.trans T hc hc'')
  | throw e => trivial
  | step q k => exact fun c'' hc'' => h c'' (Others.trans T hc hc'')

theorem agree_view {l : L} {log : List E} (h : ∀ e ∈ log, ∀ m ∈ T.footprint e, conflict l m = false) (s : S) :
    T.agree l s (D.view log s) := by
  induction log generalizing s with
  | nil => exact T.agree_refl l s
  | cons e log ih =>
    have hstep := T.agree_apply l e s (h e List.mem_cons_self)
    exact T.agree_trans l _ _ _ hstep (ih (fun e' he' => h e' (List.mem_cons_of_mem _ he')) _)

structure Good (I : S → Prop) (guard : L) (R : S → S → Prop) (w : World Stmt Res ε S E L) : Prop where
  inv : I w.committed
  covered : ∀ y ∈ w.txns, ∀ e ∈ y.2.log, ∀ l ∈ T.footprint e, l ∈ y.2.held
  apart : ∀ y ∈ w.txns, ∀ z ∈ w.txns, y.1 ≠ z.1 → ∀ l ∈ y.2.held, ∀ m ∈ z.2.held, conflict l m = false
  safe : ∀ y ∈ w.txns, T.Safe I guard R y.2.prog y.2.log y.2.held w.committed

variable {T}

theorem Good.start {w : World Stmt Res ε S E L} (h : T.Good I guard R w) (t : ℕ)
    {p : Prog Stmt Res ε Unit} (hp : T.Safe I guard R p [] [] w.committed) :
    T.Good I guard R { w with txns := (t, ⟨p, [], []⟩) :: w.txns } := by
  refine ⟨h.inv, ?_, ?_, ?_⟩
  · intro y hy
    rcases List.mem_cons.mp hy with rfl | hy
    · simp
    · exact h.covered y hy
  · intro y hy z hz hne
    rcases List.mem_cons.mp hy with rfl | hy
    · simp
    · rcases List.mem_cons.mp hz with rfl | hz
      · simp
      · exact h.apart y hy z hz hne
  · intro y hy
    rcases List.mem_cons.mp hy with rfl | hy
    · exact hp
    · exact h.safe y hy

theorem Good.set {w : World Stmt Res ε S E L} (h : T.Good I guard R w) {t : ℕ} {x : Txn Stmt Res ε E L}
    (hcovered : ∀ e ∈ x.log, ∀ l ∈ T.footprint e, l ∈ x.held)
    (hapart : ∀ y ∈ w.txns, y.1 ≠ t → ∀ l ∈ y.2.held, ∀ m ∈ x.held, conflict l m = false)
    (hsafe : T.Safe I guard R x.prog x.log x.held w.committed) : T.Good I guard R (w.set t x) := by
  refine ⟨h.inv, ?_, ?_, ?_⟩
  · intro y hy
    rcases w.mem_set hy with rfl | ⟨hy, -⟩
    · exact hcovered
    · exact h.covered y hy
  · intro y hy z hz hne l hl m hm
    rcases w.mem_set hy with rfl | ⟨hy, hyt⟩
    · rcases w.mem_set hz with rfl | ⟨hz, hzt⟩
      · exact absurd rfl hne
      · rw [T.conflict_comm]
        exact hapart z hz hzt m hm l hl
    · rcases w.mem_set hz with rfl | ⟨hz, -⟩
      · exact hapart y hy hyt l hl m hm
      · exact h.apart y hy z hz hne l hl m hm
  · intro y hy
    rcases w.mem_set hy with rfl | ⟨hy, -⟩
    · exact hsafe
    · exact h.safe y hy

theorem Good.exec_error {w : World Stmt Res ε S E L} (h : T.Good I guard R w) {t : ℕ}
    {x : Txn Stmt Res ε E L} (hx : (t, x) ∈ w.txns) (e : ε) :
    T.Good I guard R (w.set t ⟨.throw e, x.log, x.held⟩) := by
  apply h.set
  · exact h.covered (t, x) hx
  · intro y hy hyt l hl m hm
    exact h.apart y hy (t, x) hx hyt l hl m hm
  · trivial

theorem Good.exec_ok [Std.Refl R] {w : World Stmt Res ε S E L} (h : T.Good I guard R w) {t : ℕ} {q : Stmt}
    {k : Res q → Prog Stmt Res ε Unit} {log : List E} {held : List L}
    (hx : (t, ⟨.step q k, log, held⟩) ∈ w.txns)
    (hblocked : w.blocked conflict t (D.locks q (D.view log w.committed)) = false) {r : Res q} {es : List E}
    (hexec : D.exec q (D.view log w.committed) = .ok (r, es)) :
    T.Good I guard R (w.set t ⟨k r, log ++ es, held ++ D.locks q (D.view log w.committed)⟩) := by
  apply h.set
  · intro e he l hl
    rcases List.mem_append.mp he with he | he
    · exact List.mem_append_left _ (h.covered _ hx e he l hl)
    · exact List.mem_append_right _ (T.locks_cover q _ r es hexec e he l hl)
  · intro y hy hyt l hl m hm
    rcases List.mem_append.mp hm with hm | hm
    · exact h.apart y hy _ hx hyt l hl m hm
    · exact w.apart_of_not_blocked hblocked hy hyt hl hm
  · have hstep := h.safe _ hx w.committed (Others.refl T h.inv)
    simp only [hexec] at hstep
    exact hstep

theorem Good.commit [Std.Refl R] [IsTrans S R] {w : World Stmt Res ε S E L} (hguard : conflict guard guard = true)
    (h : T.Good I guard R w) {t : ℕ} {a : Unit} {log : List E} {held : List L}
    (hx : (t, ⟨.pure a, log, held⟩) ∈ w.txns) : T.Good I guard R ⟨D.view log w.committed, w.remove t⟩ := by
  have hcommit := h.safe _ hx w.committed (Others.refl T h.inv)
  have hothers : ∀ y ∈ w.txns, y.1 ≠ t →
      T.Others I guard R y.2.held w.committed (D.view log w.committed) := by
    intro y hy hyt
    refine ⟨hcommit.1, ?_, ?_, hcommit.2.2⟩
    · intro l hl
      apply T.agree_view
      intro e he m hm
      exact h.apart y hy _ hx hyt l hl m (h.covered _ hx e he m hm)
    · intro hg
      rcases hcommit.2.1 with hg' | hR
      · have := h.apart y hy _ hx hyt guard hg guard hg'
        rw [hguard] at this
        cases this
      · exact hR
  refine ⟨hcommit.1, ?_, ?_, ?_⟩
  · intro y hy
    exact h.covered y (w.mem_remove hy).1
  · intro y hy z hz
    exact h.apart y (w.mem_remove hy).1 z (w.mem_remove hz).1
  · intro y hy
    obtain ⟨hy, hyt⟩ := w.mem_remove hy
    exact Safe.stable T (h.safe y hy) (hothers y hy hyt)

theorem Good.abort {w : World Stmt Res ε S E L} (h : T.Good I guard R w) (t : ℕ) :
    T.Good I guard R { w with txns := w.remove t } := by
  refine ⟨h.inv, ?_, ?_, ?_⟩
  · intro y hy
    exact h.covered y (w.mem_remove hy).1
  · intro y hy z hz
    exact h.apart y (w.mem_remove hy).1 z (w.mem_remove hz).1
  · intro y hy
    exact h.safe y (w.mem_remove hy).1

theorem Good.next [Std.Refl R] [IsTrans S R] {w w' : World Stmt Res ε S E L} (hguard : conflict guard guard = true)
    (h : T.Good I guard R w) {l : Label Stmt Res ε} (hnext : w.next D conflict l = some w')
    (hstart : ∀ t p, l = .start t p → T.Safe I guard R p [] [] w.committed) : T.Good I guard R w' := by
  cases w.moves_of_next hnext with
  | start p _ => exact h.start _ (hstart _ p rfl)
  | fail e hfind => exact h.exec_error (w.mem_of_find hfind) e
  | exec hfind hblocked hexec => exact h.exec_ok (w.mem_of_find hfind) hblocked hexec
  | commit hfind => exact h.commit hguard (w.mem_of_find hfind)
  | abort _ => exact h.abort _

theorem reachable_inv [Std.Refl R] [IsTrans S R] {allowed : Prog Stmt Res ε Unit → Prop}
    {cond : World Stmt Res ε S E L → Label Stmt Res ε → Prop} {init : S} (hguard : conflict guard guard = true)
    (hinit : I init) (hsafe : ∀ p, allowed p → ∀ c, I c → T.Safe I guard R p [] [] c)
    {w : World Stmt Res ε S E L} (h : Reachable D conflict allowed cond init w) : I w.committed := by
  have hgood : T.Good I guard R w := by
    induction h with
    | start => exact ⟨hinit, by simp, by simp, by simp⟩
    | step _ hallowed _ hnext ih =>
      exact ih.next hguard hnext fun t p hl => hsafe p (hallowed t p hl) _ ih.inv
  exact hgood.inv

end Discipline

end Ipam.Transaction
