import Ipam.Lib.Emits

namespace Ipam.Transaction

variable {Stmt : Type} {Res : Stmt → Type} {ε α β S E L P : Type}

namespace Database

variable (D : Database Stmt Res ε S E L)

def record : Prog Stmt Res ε α → List E → S → Except ε (α × List E)
  | .pure a, log, _ => .ok (a, log)
  | .throw e, _, _ => .error e
  | .step q k, log, s =>
    match D.exec q (D.view log s) with
    | .error e => .error e
    | .ok (r, es) => record (k r) (log ++ es) s

theorem run_eq_record (p : Prog Stmt Res ε α) (log : List E) (s : S) :
    D.run p (D.view log s) = (D.record p log s).map fun r => (r.1, D.view r.2 s) := by
  induction p generalizing log with
  | pure a => rfl
  | throw e => rfl
  | step q k ih =>
    simp only [run, record]
    cases D.exec q (D.view log s) with
    | error e => rfl
    | ok r =>
      have hrest := ih r.1 (log ++ r.2)
      rw [D.view_append] at hrest
      exact hrest

theorem record_bind (p : Prog Stmt Res ε α) (f : α → Prog Stmt Res ε β) (log : List E) (s : S) :
    D.record (p.bind f) log s = (D.record p log s).bind fun r => D.record (f r.1) r.2 s := by
  induction p generalizing log with
  | pure a => rfl
  | throw e => rfl
  | step q k ih =>
    simp only [Prog.bind, record]
    cases D.exec q (D.view log s) with
    | error e => rfl
    | ok r => exact ih r.1 (log ++ r.2)

theorem run_step {q : Stmt} {k : Res q → Prog Stmt Res ε α} {s : S} {r : Res q} {es : List E}
    (h : D.exec q s = .ok (r, es)) : D.run (.step q k) s = D.run (k r) (D.view es s) := by
  simp only [run, h]

theorem record_call {q : Stmt} {log es : List E} {s : S} {r : Res q} (h : D.exec q (D.view log s) = .ok (r, es)) :
    D.record (Prog.call q : Prog Stmt Res ε (Res q)) log s = .ok (r, log ++ es) := by
  simp only [Prog.call, record, h]

/-- A program that runs alone and succeeds ends as `Q` says. -/
def After (s : S) (p : Prog Stmt Res ε α) (Q : α → S → Prop) : Prop :=
  ∀ a s', D.run p s = .ok (a, s') → Q a s'

variable {D} {s : S}

namespace After

theorem pure {a : α} {Q : α → S → Prop} (h : Q a s) : D.After s (.pure a) Q := by
  intro b s' hrun
  obtain ⟨rfl, rfl⟩ := Prod.mk.inj (Except.ok.inj hrun)
  exact h

theorem throw {e : ε} {Q : α → S → Prop} : D.After s (.throw e) Q := by
  intro b s' hrun
  cases hrun

theorem step {q : Stmt} {k : Res q → Prog Stmt Res ε α} {Q : α → S → Prop}
    (h : ∀ r es, D.exec q s = .ok (r, es) → D.After (D.view es s) (k r) Q) : D.After s (.step q k) Q := by
  intro a s' hrun
  simp only [run] at hrun
  cases hexec : D.exec q s with
  | error e =>
    rw [hexec] at hrun
    cases hrun
  | ok r =>
    rw [hexec] at hrun
    exact h r.1 r.2 hexec a s' hrun

theorem call {q : Stmt} {Q : Res q → S → Prop} (h : ∀ r es, D.exec q s = .ok (r, es) → Q r (D.view es s)) :
    D.After s (Prog.call q) Q :=
  step fun r es hexec => pure (h r es hexec)

theorem mono {p : Prog Stmt Res ε α} {Q Q' : α → S → Prop} (h : D.After s p Q)
    (hQ : ∀ a s', Q a s' → Q' a s') : D.After s p Q' :=
  fun a s' hrun => hQ a s' (h a s' hrun)

theorem and {p : Prog Stmt Res ε α} {Q Q' : α → S → Prop} (h : D.After s p Q) (h' : D.After s p Q') :
    D.After s p fun a s' => Q a s' ∧ Q' a s' :=
  fun a s' hrun => ⟨h a s' hrun, h' a s' hrun⟩

theorem bind {p : Prog Stmt Res ε α} {f : α → Prog Stmt Res ε β} {Q : β → S → Prop}
    (h : D.After s p fun a s' => D.After s' (f a) Q) : D.After s (p.bind f) Q := by
  intro b s' hrun
  rw [run_bind] at hrun
  cases hp : D.run p s with
  | error e =>
    rw [hp] at hrun
    cases hrun
  | ok r =>
    rw [hp] at hrun
    exact h r.1 r.2 hp b s' hrun

theorem ite {c : Prop} [Decidable c] {p q : Prog Stmt Res ε α} {Q : α → S → Prop} (hp : c → D.After s p Q)
    (hq : ¬ c → D.After s q Q) : D.After s (if c then p else q) Q := by
  split
  · exact hp ‹c›
  · exact hq ‹¬ c›

theorem ofOption {e : ε} {o : Option α} {Q : α → S → Prop} (h : ∀ a, o = some a → Q a s) :
    D.After s (Prog.ofOption e o) Q := by
  cases o with
  | none => exact throw
  | some a => exact pure (h a rfl)

theorem ofExcept {γ : Type} {wrap : γ → ε} {o : Except γ α} {Q : α → S → Prop} (h : ∀ a, o = .ok a → Q a s) :
    D.After s (Prog.ofExcept wrap o) Q := by
  cases o with
  | error e => exact throw
  | ok a => exact pure (h a rfl)

theorem keeps {π : S → P} {p : Prog Stmt Res ε α} (h : Keeps D π p) : D.After s p fun _ s' => π s' = π s := by
  induction p generalizing s with
  | pure a => exact pure rfl
  | throw e => exact throw
  | step q k ih =>
    apply step
    intro r es hexec
    obtain ⟨hkeep, hk⟩ := h s r es hexec
    exact (ih r hk).mono fun _ _ h => h.trans hkeep

theorem locked {guard : L} {π : S → P} {p : Prog Stmt Res ε α} {Q : α → P → Prop} {X : ε → P → Prop}
    (h : Locked D Alone guard π (π s) p Q X) : D.After s p fun a s' => Q a (π s') := by
  intro a s' hrun
  have hall := h.run
  rw [hrun] at hall
  exact hall

end After

def Preserves (D : Database Stmt Res ε S E L) (I : S → Prop) (p : Prog Stmt Res ε α) : Prop :=
  ∀ s, I s → D.After s p fun _ s' => I s'

namespace Preserves

variable {I : S → Prop}

theorem pure (a : α) : D.Preserves I (.pure a : Prog Stmt Res ε α) :=
  fun _ hs => .pure hs

theorem throw (e : ε) : D.Preserves I (.throw e : Prog Stmt Res ε α) :=
  fun _ _ => .throw

theorem bind {p : Prog Stmt Res ε α} {f : α → Prog Stmt Res ε β} (hp : D.Preserves I p)
    (hf : ∀ a, D.Preserves I (f a)) : D.Preserves I (p.bind f) := by
  intro s hs
  apply After.bind
  exact (hp s hs).mono fun a s' hs' => hf a s' hs'

theorem ite {c : Prop} [Decidable c] {p q : Prog Stmt Res ε α} (hp : D.Preserves I p) (hq : D.Preserves I q) :
    D.Preserves I (if c then p else q) := by
  split
  · exact hp
  · exact hq

theorem call {q : Stmt} (h : ∀ s r es, I s → D.exec q s = .ok (r, es) → I (D.view es s)) :
    D.Preserves I (Prog.call q : Prog Stmt Res ε (Res q)) :=
  fun s hs => .call fun r es hexec => h s r es hs hexec

theorem of_emits {p : Prog Stmt Res ε α} (h : Emits D (fun _ => False) p) : D.Preserves I p := by
  intro s hs
  refine (After.keeps (π := id) (Keeps.of_emits h fun _ he => he.elim)).mono ?_
  rintro _ s' rfl
  exact hs

end Preserves

def Succeeds (D : Database Stmt Res ε S E L) (s : S) (p : Prog Stmt Res ε α) : Prop :=
  ∃ a s', D.run p s = .ok (a, s')

namespace Succeeds

theorem pure (a : α) : D.Succeeds s (.pure a : Prog Stmt Res ε α) := ⟨a, s, rfl⟩

theorem step {q : Stmt} {k : Res q → Prog Stmt Res ε α} {r : Res q} {es : List E} (hexec : D.exec q s = .ok (r, es))
    (h : D.Succeeds (D.view es s) (k r)) : D.Succeeds s (.step q k) := by
  obtain ⟨a, s', hrun⟩ := h
  exact ⟨a, s', by simpa only [run, hexec] using hrun⟩

theorem read {q : Stmt} {k : Res q → Prog Stmt Res ε α} {r : Res q} (hexec : D.exec q s = .ok (r, []))
    (h : D.Succeeds s (k r)) : D.Succeeds s (.step q k) :=
  step hexec h

theorem call {q : Stmt} {r : Res q} {es : List E} (hexec : D.exec q s = .ok (r, es)) :
    D.Succeeds s (Prog.call q : Prog Stmt Res ε (Res q)) :=
  step hexec (pure r)

theorem bind {p : Prog Stmt Res ε α} {f : α → Prog Stmt Res ε β} (hp : D.Succeeds s p)
    (hf : D.After s p fun a s' => D.Succeeds s' (f a)) : D.Succeeds s (p.bind f) := by
  obtain ⟨a, s', hrun⟩ := hp
  obtain ⟨b, s'', hrest⟩ := hf a s' hrun
  exact ⟨b, s'', by rw [run_bind, hrun]; exact hrest⟩

end Succeeds

end Database

def Request (_D : Database Stmt Res ε S E L) (α : Type) : Type :=
  S → Except ε α × List E

namespace Request

variable {D : Database Stmt Res ε S E L}

def after (m : Request D α) (s : S) : S :=
  D.view (m s).2 s

def throw (e : ε) : Request D α :=
  fun _ => (.error e, [])

def andThen (m : Request D α) (f : α → Request D β) : Request D β := fun s =>
  match m s with
  | (.error e, log) => (.error e, log)
  | (.ok a, log) => ((f a (D.view log s)).1, log ++ (f a (D.view log s)).2)

instance : Monad (Request D) where
  pure a := fun _ => (.ok a, [])
  bind := andThen

def ofExcept {γ : Type} (wrap : γ → ε) : Except γ α → Request D α
  | .ok a => pure a
  | .error e => throw (wrap e)

def transact (p : Prog Stmt Res ε α) : Request D α := fun s =>
  match D.record p [] s with
  | .ok (a, log) => (.ok a, log)
  | .error e => (.error e, [])

def rollback (p : Prog Stmt Res ε α) : Request D α := fun s =>
  ((D.record p [] s).map Prod.fst, [])

def attempts : ℕ → Request D α → Request D α
  | 0, m => m
  | n + 1, m => fun s =>
    match m s with
    | (.ok a, log) => (.ok a, log)
    | (.error _, log) => ((attempts n m (D.view log s)).1, log ++ (attempts n m (D.view log s)).2)

theorem bind_apply (m : Request D α) (f : α → Request D β) (s : S) :
    (m >>= f) s = match m s with
      | (.error e, log) => (.error e, log)
      | (.ok a, log) => ((f a (D.view log s)).1, log ++ (f a (D.view log s)).2) := rfl

theorem transact_ok {p : Prog Stmt Res ε α} {s : S} {a : α} {log : List E} (h : D.record p [] s = .ok (a, log)) :
    (transact p : Request D α) s = (.ok a, log) := by
  simp only [transact, h]

theorem transact_error {p : Prog Stmt Res ε α} {s : S} {e : ε} (h : D.record p [] s = .error e) :
    (transact p : Request D α) s = (.error e, []) := by
  simp only [transact, h]

theorem transact_succeeds (p : Prog Stmt Res ε Unit) (s : S) :
    ((transact p : Request D Unit) s).1 = .ok () ↔ D.Succeeds s p := by
  have hrun := D.run_eq_record p [] s
  simp only [transact, Database.Succeeds]
  cases hp : D.record p [] s with
  | error e =>
    rw [hp] at hrun
    constructor
    · intro h
      cases h
    · rintro ⟨a, s', h⟩
      cases hrun.symm.trans h
  | ok r =>
    rw [hp] at hrun
    exact ⟨fun _ => ⟨_, _, hrun⟩, fun _ => rfl⟩

theorem rollback_bind (p : Prog Stmt Res ε α) (f : α → Request D β) (s : S) :
    (rollback p >>= f) s = match D.record p [] s with
      | .error e => (.error e, [])
      | .ok r => f r.1 s := by
  rw [bind_apply]
  simp only [rollback]
  cases D.record p [] s with
  | error e => rfl
  | ok r => rfl

theorem rollback_apply (p : Prog Stmt Res ε α) (s : S) :
    (rollback p : Request D α) s = ((D.run p s).map Prod.fst, []) := by
  have hrun := D.run_eq_record p [] s
  rw [D.view_nil] at hrun
  rw [hrun]
  simp only [rollback]
  cases D.record p [] s with
  | error e => rfl
  | ok r => rfl

theorem rollback_bind_run (p : Prog Stmt Res ε α) (f : α → Request D β) (s : S) :
    (rollback p >>= f) s = match D.run p s with
      | .error e => (.error e, [])
      | .ok r => f r.1 s := by
  rw [bind_apply, rollback_apply]
  cases D.run p s with
  | error e => rfl
  | ok r => rfl

theorem ofExcept_bind {γ : Type} (wrap : γ → ε) (o : Except γ α) (f : α → Request D β) (s : S) :
    (ofExcept wrap o >>= f) s = match o with
      | .error e => (.error (wrap e), [])
      | .ok a => f a s := by
  cases o with
  | error e => rfl
  | ok a => rfl

/-- The answer and the state after a request are as `Q` says. -/
def Ensures (s : S) (m : Request D α) (Q : Except ε α → S → Prop) : Prop :=
  Q (m s).1 (m.after s)

variable {s : S}

namespace Ensures

theorem mono {m : Request D α} {Q Q' : Except ε α → S → Prop} (h : Ensures s m Q)
    (hQ : ∀ r s', Q r s' → Q' r s') : Ensures s m Q' :=
  hQ _ _ h

theorem pure {a : α} {Q : Except ε α → S → Prop} (h : Q (.ok a) s) : Ensures s (Pure.pure a : Request D α) Q := h

theorem throw {e : ε} {Q : Except ε α → S → Prop} (h : Q (.error e) s) :
    Ensures s (Request.throw e : Request D α) Q := h

theorem ofExcept_cases {γ : Type} {wrap : γ → ε} {o : Except γ α} {Q : Except ε α → S → Prop}
    (hok : ∀ a, o = .ok a → Q (.ok a) s) (herror : ∀ e, o = .error e → Q (.error (wrap e)) s) :
    Ensures s (Request.ofExcept wrap o : Request D α) Q := by
  cases o with
  | error e => exact herror e rfl
  | ok a => exact hok a rfl

theorem ofExcept {γ : Type} {wrap : γ → ε} {o : Except γ α} {Q : Except ε α → S → Prop}
    (hok : ∀ a, o = .ok a → Q (.ok a) s) (herror : ∀ e, Q (.error e) s) :
    Ensures s (Request.ofExcept wrap o : Request D α) Q :=
  ofExcept_cases hok fun e _ => herror (wrap e)

theorem bind {m : Request D α} {f : α → Request D β} {Q : Except ε β → S → Prop}
    (h : Ensures s m fun r s' =>
      match r with
      | .error e => Q (.error e) s'
      | .ok a => Ensures s' (f a) Q) : Ensures s (m >>= f) Q := by
  have hbind : (m >>= f) = m.andThen f := rfl
  rw [hbind]
  simp only [Ensures, after, andThen] at h ⊢
  cases hm : m s with
  | mk r log =>
    rw [hm] at h
    cases r with
    | error e => exact h
    | ok a =>
      simp only [D.view_append]
      exact h

theorem transact_run {p : Prog Stmt Res ε α} {Q : Except ε α → S → Prop}
    (hok : D.After s p fun a s' => Q (.ok a) s') (herror : ∀ e, D.run p s = .error e → Q (.error e) s) :
    Ensures s (Request.transact p : Request D α) Q := by
  have hrun := D.run_eq_record p [] s
  simp only [Ensures, after, Request.transact]
  cases hp : D.record p [] s with
  | error e =>
    rw [hp] at hrun
    exact herror e hrun
  | ok r =>
    rw [hp] at hrun
    exact hok r.1 _ hrun

theorem rollback_run {p : Prog Stmt Res ε α} {Q : Except ε α → S → Prop} (hok : D.After s p fun a _ => Q (.ok a) s)
    (herror : ∀ e, D.run p s = .error e → Q (.error e) s) : Ensures s (Request.rollback p : Request D α) Q := by
  have hrun := D.run_eq_record p [] s
  simp only [Ensures, after, Request.rollback]
  cases hp : D.record p [] s with
  | error e =>
    rw [hp] at hrun
    exact herror e hrun
  | ok r =>
    rw [hp] at hrun
    exact hok r.1 _ hrun

theorem transact {p : Prog Stmt Res ε α} {Q : Except ε α → S → Prop} (hok : D.After s p fun a s' => Q (.ok a) s')
    (herror : ∀ e, Q (.error e) s) : Ensures s (Request.transact p : Request D α) Q :=
  transact_run hok fun e _ => herror e

theorem rollback {p : Prog Stmt Res ε α} {Q : Except ε α → S → Prop} (hok : D.After s p fun a _ => Q (.ok a) s)
    (herror : ∀ e, Q (.error e) s) : Ensures s (Request.rollback p : Request D α) Q :=
  rollback_run hok fun e _ => herror e

end Ensures

def Preserves (I : S → Prop) (m : Request D α) : Prop :=
  ∀ s, I s → I (m.after s)

namespace Preserves

variable {I : S → Prop}

theorem pure (a : α) : Preserves I (Pure.pure a : Request D α) :=
  fun _ hs => hs

theorem throw (e : ε) : Preserves I (Request.throw e : Request D α) :=
  fun _ hs => hs

theorem bind {m : Request D α} {f : α → Request D β} (hm : Preserves I m) (hf : ∀ a, Preserves I (f a)) :
    Preserves I (m >>= f) := by
  intro s hs
  have hstep : Ensures s (m >>= f) fun _ s' => I s' := by
    apply Ensures.bind
    have hm' := hm s hs
    change match (m s).1 with
      | .error e => I (m.after s)
      | .ok a => Ensures (m.after s) (f a) fun _ s' => I s'
    cases (m s).1 with
    | error e => exact hm'
    | ok a => exact hf a _ hm'
  exact hstep

theorem transact {p : Prog Stmt Res ε α} (hp : D.Preserves I p) : Preserves I (Request.transact p : Request D α) := by
  intro s hs
  have h : Ensures s (Request.transact p : Request D α) fun _ s' => I s' := .transact (hp s hs) fun _ => hs
  exact h

theorem rollback (p : Prog Stmt Res ε α) : Preserves I (Request.rollback p : Request D α) :=
  fun _ hs => hs

theorem ofExcept {γ : Type} {wrap : γ → ε} (o : Except γ α) : Preserves I (Request.ofExcept wrap o : Request D α) := by
  cases o with
  | error e => exact throw _
  | ok a => exact pure _

theorem attempts {m : Request D α} (hm : Preserves I m) (n : ℕ) : Preserves I (attempts n m) := by
  induction n with
  | zero => exact hm
  | succ n ih =>
    intro s hs
    have hfirst := hm s hs
    simp only [after, Request.attempts] at hfirst ⊢
    split
    · rename_i hok
      rw [hok] at hfirst
      exact hfirst
    · rename_i herror
      rw [herror] at hfirst
      rw [D.view_append]
      exact ih _ hfirst

end Preserves

end Request

inductive Served {A W : Type} (serve : A → W → W) (cond : A → W → Prop) (init : W) : W → Prop where
  | start : Served serve cond init init
  | serve {w : W} (a : A) (h : Served serve cond init w) (ha : cond a w) : Served serve cond init (serve a w)

theorem Served.inv {A W : Type} {serve : A → W → W} {cond : A → W → Prop} {init : W} {I : W → Prop}
    (hinit : I init) (hstep : ∀ a w, I w → cond a w → I (serve a w)) {w : W} (h : Served serve cond init w) :
    I w := by
  induction h with
  | start => exact hinit
  | serve a _ ha ih => exact hstep a _ ih ha

end Ipam.Transaction
