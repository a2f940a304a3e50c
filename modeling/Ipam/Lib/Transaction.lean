import Mathlib.Tactic

/-!
A transaction is a program that sends statements one by one. A statement reads the state that the transaction
sees and answers with a result and a list of effects. `run` executes a program alone; `wp` lets other
transactions change the committed state before every statement.
-/

namespace Ipam.Transaction

inductive Prog (Stmt : Type) (Res : Stmt → Type) (ε α : Type) : Type where
  | pure (a : α)
  | throw (e : ε)
  | step (q : Stmt) (k : Res q → Prog Stmt Res ε α)

variable {Stmt : Type} {Res : Stmt → Type} {ε α β γ S E L : Type}

namespace Prog

def bind : Prog Stmt Res ε α → (α → Prog Stmt Res ε β) → Prog Stmt Res ε β
  | .pure a, f => f a
  | .throw e, _ => .throw e
  | .step q k, f => .step q fun r => (k r).bind f

instance : Monad (Prog Stmt Res ε) where
  pure := .pure
  bind := .bind

def call (q : Stmt) : Prog Stmt Res ε (Res q) :=
  .step q .pure

def ofOption (e : ε) : Option α → Prog Stmt Res ε α
  | some a => .pure a
  | none => .throw e

def ofExcept (wrap : γ → ε) : Except γ α → Prog Stmt Res ε α
  | .ok a => .pure a
  | .error e => .throw (wrap e)

def void (p : Prog Stmt Res ε α) : Prog Stmt Res ε Unit :=
  p.bind fun _ => .pure ()

theorem bind_pure (p : Prog Stmt Res ε α) : p.bind .pure = p := by
  induction p with
  | pure a => rfl
  | throw e => rfl
  | step q k ih =>
    simp only [bind]
    congr 1
    funext r
    exact ih r

theorem bind_assoc (p : Prog Stmt Res ε α) (f : α → Prog Stmt Res ε β) (g : β → Prog Stmt Res ε γ) :
    (p.bind f).bind g = p.bind fun a => (f a).bind g := by
  induction p with
  | pure a => rfl
  | throw e => rfl
  | step q k ih =>
    simp only [bind]
    congr 1
    funext r
    exact ih r

end Prog

structure Database (Stmt : Type) (Res : Stmt → Type) (ε S E L : Type) where
  apply : E → S → S
  exec : (q : Stmt) → S → Except ε (Res q × List E)
  locks : (q : Stmt) → S → List L

namespace Database

variable (D : Database Stmt Res ε S E L)

def view (log : List E) (s : S) : S :=
  log.foldl (fun s e => D.apply e s) s

theorem view_append (log log' : List E) (s : S) : D.view (log ++ log') s = D.view log' (D.view log s) := by
  simp only [view, List.foldl_append]

@[simp]
theorem view_nil (s : S) : D.view [] s = s := rfl

def run : Prog Stmt Res ε α → S → Except ε (α × S)
  | .pure a, s => .ok (a, s)
  | .throw e, _ => .error e
  | .step q k, s =>
    match D.exec q s with
    | .error e => .error e
    | .ok (r, es) => run (k r) (D.view es s)

theorem run_bind (p : Prog Stmt Res ε α) (f : α → Prog Stmt Res ε β) (s : S) :
    D.run (p.bind f) s = (D.run p s).bind fun r => D.run (f r.1) r.2 := by
  induction p generalizing s with
  | pure a => rfl
  | throw e => rfl
  | step q k ih =>
    simp only [Prog.bind, run]
    cases D.exec q s with
    | error e => rfl
    | ok r => exact ih r.1 (D.view r.2 s)

def runAll : List (Prog Stmt Res ε Unit) → S → Except ε S
  | [], s => .ok s
  | p :: ps, s => (D.run p s).bind fun r => runAll ps r.2

/-- The weakest precondition of a program whose transaction has done `log` and holds `held`, where `Others`
says what the committed state may become between two statements. -/
def wp (Others : List L → S → S → Prop) (Q : α → List E → List L → S → Prop)
    (X : ε → List E → List L → S → Prop) : Prog Stmt Res ε α → List E → List L → S → Prop
  | .pure a, log, held, c => Q a log held c
  | .throw e, log, held, c => X e log held c
  | .step q k, log, held, c => ∀ c', Others held c c' →
    match D.exec q (D.view log c') with
    | .error e => X e log held c'
    | .ok (r, es) => wp Others Q X (k r) (log ++ es) (held ++ D.locks q (D.view log c')) c'

variable {D} {Others : List L → S → S → Prop} {X : ε → List E → List L → S → Prop}

theorem wp_bind {Q : β → List E → List L → S → Prop} {p : Prog Stmt Res ε α} {f : α → Prog Stmt Res ε β}
    {log : List E} {held : List L} {c : S}
    (h : D.wp Others (fun a log held c => D.wp Others Q X (f a) log held c) X p log held c) :
    D.wp Others Q X (p.bind f) log held c := by
  induction p generalizing log held c with
  | pure a => exact h
  | throw e => exact h
  | step q k ih =>
    intro c' hc'
    have hstep := h c' hc'
    cases hexec : D.exec q (D.view log c') with
    | error e => simpa only [hexec] using hstep
    | ok r =>
      simp only [hexec] at hstep ⊢
      exact ih r.1 hstep

theorem wp_mono {Q Q' : α → List E → List L → S → Prop} {X' : ε → List E → List L → S → Prop}
    {p : Prog Stmt Res ε α} {log : List E} {held : List L} {c : S} (h : D.wp Others Q X p log held c)
    (hQ : ∀ a log held c, Q a log held c → Q' a log held c)
    (hX : ∀ e log held c, X e log held c → X' e log held c) : D.wp Others Q' X' p log held c := by
  induction p generalizing log held c with
  | pure a => exact hQ a log held c h
  | throw e => exact hX e log held c h
  | step q k ih =>
    intro c' hc'
    have hstep := h c' hc'
    cases hexec : D.exec q (D.view log c') with
    | error e =>
      simp only [hexec] at hstep ⊢
      exact hX e log held c' hstep
    | ok r =>
      simp only [hexec] at hstep ⊢
      exact ih r.1 hstep

theorem wp_and {Q Q' : α → List E → List L → S → Prop} {p : Prog Stmt Res ε α} {log : List E} {held : List L}
    {c : S} (h : D.wp Others Q X p log held c) (h' : D.wp Others Q' X p log held c) :
    D.wp Others (fun a log held c => Q a log held c ∧ Q' a log held c) X p log held c := by
  induction p generalizing log held c with
  | pure a => exact ⟨h, h'⟩
  | throw e => exact h
  | step q k ih =>
    intro c' hc'
    have hstep := h c' hc'
    have hstep' := h' c' hc'
    cases hexec : D.exec q (D.view log c') with
    | error e =>
      simp only [hexec] at hstep ⊢
      exact hstep
    | ok r =>
      simp only [hexec] at hstep hstep' ⊢
      exact ih r.1 hstep hstep'

theorem wp_run {Q : α → List E → List L → S → Prop} {p : Prog Stmt Res ε α} {log : List E} {held : List L}
    {c : S} (h : D.wp Others Q X p log held c) (hrefl : ∀ held, Others held c c) :
    match D.run p (D.view log c) with
    | .ok (a, s) => ∃ log' held', s = D.view log' c ∧ Q a log' held' c
    | .error e => ∃ log' held', X e log' held' c := by
  induction p generalizing log held with
  | pure a => exact ⟨log, held, rfl, h⟩
  | throw e => exact ⟨log, held, h⟩
  | step q k ih =>
    have hstep := h c (hrefl held)
    simp only [run]
    cases hexec : D.exec q (D.view log c) with
    | error e =>
      simp only [hexec] at hstep ⊢
      exact ⟨log, held, hstep⟩
    | ok r =>
      simp only [hexec] at hstep ⊢
      rw [← view_append]
      exact ih r.1 hstep

end Database

end Ipam.Transaction
