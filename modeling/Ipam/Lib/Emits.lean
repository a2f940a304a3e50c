import Ipam.Lib.Locked

namespace Ipam.Transaction

variable {Stmt : Type} {Res : Stmt → Type} {ε α β S E L P : Type}

def Emits (D : Database Stmt Res ε S E L) (good : E → Prop) : Prog Stmt Res ε α → Prop
  | .pure _ => True
  | .throw _ => True
  | .step q k => ∀ s r es, D.exec q s = .ok (r, es) → (∀ e ∈ es, good e) ∧ Emits D good (k r)

namespace Emits

variable {D : Database Stmt Res ε S E L} {good : E → Prop}

theorem bind {p : Prog Stmt Res ε α} {f : α → Prog Stmt Res ε β} (hp : Emits D good p)
    (hf : ∀ a, Emits D good (f a)) : Emits D good (p.bind f) := by
  induction p with
  | pure a => exact hf a
  | throw e => trivial
  | step q k ih =>
    intro s r es hexec
    exact ⟨(hp s r es hexec).1, ih r (hp s r es hexec).2⟩

theorem void {p : Prog Stmt Res ε α} (hp : Emits D good p) : Emits D good p.void :=
  hp.bind fun _ => trivial

theorem call {q : Stmt} (h : ∀ s r es, D.exec q s = .ok (r, es) → ∀ e ∈ es, good e) :
    Emits D good (Prog.call q : Prog Stmt Res ε (Res q)) :=
  fun s r es hexec => ⟨h s r es hexec, trivial⟩

theorem mono {good' : E → Prop} {p : Prog Stmt Res ε α} (hp : Emits D good p) (h : ∀ e, good e → good' e) :
    Emits D good' p := by
  induction p with
  | pure a => trivial
  | throw e => trivial
  | step q k ih =>
    intro s r es hexec
    obtain ⟨hes, hk⟩ := hp s r es hexec
    exact ⟨fun e he => h e (hes e he), ih r hk⟩

theorem ofOption {e : ε} (o : Option α) : Emits D good (Prog.ofOption e o : Prog Stmt Res ε α) := by
  cases o <;> trivial

theorem ofExcept {γ : Type} {wrap : γ → ε} (r : Except γ α) :
    Emits D good (Prog.ofExcept wrap r : Prog Stmt Res ε α) := by
  cases r <;> trivial

theorem run {p : Prog Stmt Res ε α} (hp : Emits D good p) {s s' : S} {a : α} (h : D.run p s = .ok (a, s')) :
    ∃ es, s' = D.view es s ∧ ∀ e ∈ es, good e := by
  induction p generalizing s with
  | pure b =>
    obtain ⟨-, rfl⟩ := Prod.mk.inj (Except.ok.inj h)
    exact ⟨[], rfl, by simp⟩
  | throw e => cases h
  | step q k ih =>
    simp only [Database.run] at h
    split at h
    · cases h
    · rename_i r es hexec
      obtain ⟨hes, hk⟩ := hp s r es hexec
      obtain ⟨fs, rfl, hfs⟩ := ih r hk h
      refine ⟨es ++ fs, (D.view_append es fs s).symm, ?_⟩
      intro e he
      rcases List.mem_append.mp he with he | he
      · exact hes e he
      · exact hfs e he

end Emits

def Raises (D : Database Stmt Res ε S E L) (good : ε → Prop) : Prog Stmt Res ε α → Prop
  | .pure _ => True
  | .throw e => good e
  | .step q k => (∀ s e, D.exec q s = .error e → good e) ∧ ∀ r, Raises D good (k r)

namespace Raises

variable {D : Database Stmt Res ε S E L} {good : ε → Prop}

theorem bind {p : Prog Stmt Res ε α} {f : α → Prog Stmt Res ε β} (hp : Raises D good p)
    (hf : ∀ a, Raises D good (f a)) : Raises D good (p.bind f) := by
  induction p with
  | pure a => exact hf a
  | throw e => exact hp
  | step q k ih => exact ⟨hp.1, fun r => ih r (hp.2 r)⟩

theorem call {q : Stmt} (h : ∀ s e, D.exec q s = .error e → good e) :
    Raises D good (Prog.call q : Prog Stmt Res ε (Res q)) :=
  ⟨h, fun _ => trivial⟩

theorem ofOption {e : ε} (he : good e) (o : Option α) : Raises D good (Prog.ofOption e o : Prog Stmt Res ε α) := by
  cases o with
  | none => exact he
  | some a => trivial

theorem ofExcept {γ : Type} {wrap : γ → ε} {r : Except γ α} (h : ∀ e, r = .error e → good (wrap e)) :
    Raises D good (Prog.ofExcept wrap r : Prog Stmt Res ε α) := by
  cases r with
  | error e => exact h e rfl
  | ok a => trivial

theorem ite {c : Prop} [Decidable c] {p q : Prog Stmt Res ε α} (hp : Raises D good p) (hq : Raises D good q) :
    Raises D good (if c then p else q) := by
  split
  · exact hp
  · exact hq

theorem run {p : Prog Stmt Res ε α} (hp : Raises D good p) {s : S} {e : ε} (h : D.run p s = .error e) : good e := by
  induction p generalizing s with
  | pure a => cases h
  | throw e' =>
    obtain rfl := Except.error.inj h
    exact hp
  | step q k ih =>
    simp only [Database.run] at h
    split at h
    · rename_i e' hexec
      obtain rfl := Except.error.inj h
      exact hp.1 s e' hexec
    · exact ih _ (hp.2 _) h

theorem locked {Others : List L → S → S → Prop} {guard : L} {π : S → P} {x : P} {p : Prog Stmt Res ε α}
    {Q : α → P → Prop} {X : ε → P → Prop} (h : Raises D good p) (hp : Locked D Others guard π x p Q X) :
    Locked D Others guard π x p Q fun e _ => good e := by
  intro log held c hg hx
  have hwp := hp log held c hg hx
  clear hp hg hx
  induction p generalizing log held c with
  | pure a => exact hwp
  | throw e => exact h
  | step q k ih =>
    intro c' hc'
    have hrest := hwp c' hc'
    cases hexec : D.exec q (D.view log c') with
    | error e => exact h.1 _ e hexec
    | ok r =>
      simp only [hexec] at hrest
      exact ih r.1 (h.2 r.1) _ _ _ hrest

end Raises

def Keeps (D : Database Stmt Res ε S E L) (π : S → P) : Prog Stmt Res ε α → Prop
  | .pure _ => True
  | .throw _ => True
  | .step q k => ∀ s r es, D.exec q s = .ok (r, es) → π (D.view es s) = π s ∧ Keeps D π (k r)

namespace Keeps

variable {D : Database Stmt Res ε S E L} {π : S → P}

theorem bind {p : Prog Stmt Res ε α} {f : α → Prog Stmt Res ε β} (hp : Keeps D π p) (hf : ∀ a, Keeps D π (f a)) :
    Keeps D π (p.bind f) := by
  induction p with
  | pure a => exact hf a
  | throw e => trivial
  | step q k ih =>
    intro s r es hexec
    exact ⟨(hp s r es hexec).1, ih r (hp s r es hexec).2⟩

theorem call {q : Stmt} (h : ∀ s r es, D.exec q s = .ok (r, es) → π (D.view es s) = π s) :
    Keeps D π (Prog.call q : Prog Stmt Res ε (Res q)) :=
  fun s r es hexec => ⟨h s r es hexec, trivial⟩

theorem ofOption {e : ε} (o : Option α) : Keeps D π (Prog.ofOption e o : Prog Stmt Res ε α) := by
  cases o <;> trivial

theorem ofExcept {γ : Type} {wrap : γ → ε} (r : Except γ α) :
    Keeps D π (Prog.ofExcept wrap r : Prog Stmt Res ε α) := by
  cases r <;> trivial

theorem of_emits {good : E → Prop} {p : Prog Stmt Res ε α} (h : Emits D good p)
    (hgood : ∀ e, good e → ∀ s, π (D.apply e s) = π s) : Keeps D π p := by
  have hview : ∀ es : List E, (∀ e ∈ es, good e) → ∀ s, π (D.view es s) = π s := by
    intro es hes
    induction es with
    | nil => exact fun _ => rfl
    | cons e es ih =>
      intro s
      have hrest := ih (fun e' he' => hes e' (List.mem_cons_of_mem _ he')) (D.apply e s)
      exact hrest.trans (hgood e (hes e List.mem_cons_self) s)
  induction p with
  | pure a => trivial
  | throw e => trivial
  | step q k ih =>
    intro s r es hexec
    obtain ⟨hes, hk⟩ := h s r es hexec
    exact ⟨hview es hes s, ih r hk⟩

theorem locked {Others : List L → S → S → Prop} {guard : L} (F : Frozen D Others guard π)
    {p : Prog Stmt Res ε α} (h : Keeps D π p) (x : P) :
    Locked D Others guard π x p (fun _ y => y = x) (fun _ _ => True) := by
  induction p with
  | pure a => exact Locked.pure rfl
  | throw e => exact Locked.throw trivial
  | step q k ih =>
    apply Locked.step F
    · exact fun _ _ _ _ => trivial
    · rintro s r es rfl hexec
      obtain ⟨hkeep, hk⟩ := h s r es hexec
      rw [hkeep]
      exact ih r hk

theorem then_locked {Others : List L → S → S → Prop} {guard : L} (F : Frozen D Others guard π)
    {p : Prog Stmt Res ε α} (h : Keeps D π p) {f : α → Prog Stmt Res ε β} {x : P} {Q : β → P → Prop}
    (hf : ∀ a, Locked D Others guard π x (f a) Q (fun _ _ => True)) :
    Locked D Others guard π x (p.bind f) Q (fun _ _ => True) := by
  apply Locked.bind
  apply (h.locked F x).mono _ fun _ _ h => h
  rintro a y rfl
  exact hf a

end Keeps

namespace Discipline

variable {D : Database Stmt Res ε S E L} {conflict : L → L → Bool} (T : Discipline D conflict)
variable {I : S → Prop} {guard : L} {R : S → S → Prop}

structure Extends (I : S → Prop) (guard : L) (R : S → S → Prop) (good : E → Prop) (log : List E) (held : List L) (c : S)
    (log' : List E) (held' : List L) (c' : S) : Prop where
  effects : ∃ es, log' = log ++ es ∧ ∀ e ∈ es, good e
  locks : ∃ ls, held' = held ++ ls
  others : T.Others I guard R held c c'

theorem Others.weaken {held ls : List L} {c c' : S} (h : T.Others I guard R (held ++ ls) c c') :
    T.Others I guard R held c c' :=
  ⟨h.inv, fun l hl => h.agree l (List.mem_append_left _ hl), fun hg => h.frozen (List.mem_append_left _ hg),
    h.evolves⟩

theorem wp_emits [Std.Refl R] [IsTrans S R] {good : E → Prop} {p : Prog Stmt Res ε α} (hp : Emits D good p) {log : List E} {held : List L}
    {c : S} (hc : I c) :
    D.wp (T.Others I guard R)
      (fun _ log' held' c' => T.Extends I guard R good log held c log' held' c')
      (fun _ _ _ _ => True) p log held c := by
  induction p generalizing log held c with
  | pure a => exact ⟨⟨[], by simp⟩, ⟨[], by simp⟩, Others.refl T hc⟩
  | throw e => trivial
  | step q k ih =>
    intro c' hc'
    cases hexec : D.exec q (D.view log c') with
    | error e => trivial
    | ok r =>
      obtain ⟨hes, hk⟩ := hp _ r.1 r.2 hexec
      apply Database.wp_mono (ih r.1 hk hc'.inv) _ fun _ _ _ _ h => h
      rintro a log' held' c'' ⟨⟨fs, rfl, hfs⟩, ⟨ls, rfl⟩, hothers⟩
      refine ⟨⟨r.2 ++ fs, by simp, ?_⟩, ⟨D.locks q (D.view log c') ++ ls, by simp⟩, ?_⟩
      · intro e he
        rcases List.mem_append.mp he with he | he
        · exact hes e he
        · exact hfs e he
      · exact Others.trans T hc' (Others.weaken T hothers)

end Discipline

end Ipam.Transaction
