import Ipam.Lib.Discipline

namespace Ipam.Transaction

variable {Stmt : Type} {Res : Stmt → Type} {ε α β S E L P : Type}

def Same (π : S → P) (c c' : S) : Prop := π c' = π c

instance (π : S → P) : Std.Refl (Same π) := ⟨fun _ => rfl⟩

instance (π : S → P) : IsTrans S (Same π) := ⟨fun _ _ _ h h' => Eq.trans h' h⟩

structure Frozen (D : Database Stmt Res ε S E L) (Others : List L → S → S → Prop) (guard : L) (π : S → P) :
    Prop where
  others : ∀ held c c', guard ∈ held → Others held c c' → π c' = π c
  apply : ∀ e s s', π s = π s' → π (D.apply e s) = π (D.apply e s')

theorem Frozen.view {D : Database Stmt Res ε S E L} {Others : List L → S → S → Prop} {guard : L} {π : S → P}
    (F : Frozen D Others guard π) (log : List E) {s s' : S} (h : π s = π s') :
    π (D.view log s) = π (D.view log s') := by
  induction log generalizing s s' with
  | nil => exact h
  | cons e log ih => exact ih (F.apply e s s' h)

theorem Frozen.wp_frozen {D : Database Stmt Res ε S E L} {Others : List L → S → S → Prop} {guard : L} {π : S → P}
    (F : Frozen D Others guard π) (p : Prog Stmt Res ε α) {log : List E} {held : List L} {c : S}
    (hg : guard ∈ held) : D.wp Others (fun _ _ _ c' => π c' = π c) (fun _ _ _ _ => True) p log held c := by
  induction p generalizing log held c with
  | pure a => exact rfl
  | throw e => trivial
  | step q k ih =>
    intro c' hc'
    have hπ := F.others held c c' hg hc'
    cases hexec : D.exec q (D.view log c') with
    | error e => trivial
    | ok r =>
      apply Database.wp_mono (ih r.1 (List.mem_append_left _ hg)) _ fun _ _ _ _ h => h
      exact fun _ _ _ _ h => h.trans hπ

def Alone (_ : List L) (c c' : S) : Prop := c' = c

theorem Frozen.alone {D : Database Stmt Res ε S E L} {guard : L} {π : S → P}
    (hresp : ∀ e s s', π s = π s' → π (D.apply e s) = π (D.apply e s')) : Frozen D Alone guard π :=
  ⟨fun _ _ _ _ h => congrArg π h, hresp⟩

def Locked (D : Database Stmt Res ε S E L) (Others : List L → S → S → Prop) (guard : L) (π : S → P) (x : P)
    (p : Prog Stmt Res ε α) (Q : α → P → Prop) (X : ε → P → Prop) : Prop :=
  ∀ log held c, guard ∈ held → π (D.view log c) = x →
    D.wp Others (fun a log' held' c' => guard ∈ held' ∧ Q a (π (D.view log' c')))
      (fun e log' _ c' => X e (π (D.view log' c'))) p log held c

namespace Locked

variable {D : Database Stmt Res ε S E L} {Others : List L → S → S → Prop} {guard : L} {π : S → P} {x : P}
variable {X : ε → P → Prop}

theorem pure {a : α} {Q : α → P → Prop} (h : Q a x) : Locked D Others guard π x (.pure a) Q X := by
  rintro log held c hg rfl
  exact ⟨hg, h⟩

theorem throw {e : ε} {Q : α → P → Prop} (h : X e x) : Locked D Others guard π x (.throw e) Q X := by
  rintro log held c hg rfl
  exact h

theorem step (F : Frozen D Others guard π) {q : Stmt} {k : Res q → Prog Stmt Res ε α} {Q : α → P → Prop}
    (herror : ∀ s e, π s = x → D.exec q s = .error e → X e x)
    (hok : ∀ s r es, π s = x → D.exec q s = .ok (r, es) →
      Locked D Others guard π (π (D.view es s)) (k r) Q X) :
    Locked D Others guard π x (.step q k) Q X := by
  rintro log held c hg rfl c' hc'
  have hπ : π (D.view log c') = π (D.view log c) := F.view log (F.others held c c' hg hc')
  cases hexec : D.exec q (D.view log c') with
  | error e =>
    have := herror _ e hπ hexec
    rwa [← hπ] at this
  | ok r =>
    apply hok _ r.1 r.2 hπ hexec
    · exact List.mem_append_left _ hg
    · rw [D.view_append]

theorem read (F : Frozen D Others guard π) {q : Stmt} {k : Res q → Prog Stmt Res ε α} {Q : α → P → Prop}
    {a : Res q} (hexec : ∀ s, π s = x → D.exec q s = .ok (a, [])) (h : Locked D Others guard π x (k a) Q X) :
    Locked D Others guard π x (Prog.call q >>= k) Q X := by
  apply step F
  · intro s e hs he
    rw [hexec s hs] at he
    cases he
  · intro s r es hs he
    rw [hexec s hs] at he
    obtain ⟨rfl, rfl⟩ := Prod.mk.inj (Except.ok.inj he)
    rw [D.view_nil, hs]
    exact h

theorem bind {p : Prog Stmt Res ε α} {f : α → Prog Stmt Res ε β} {Q : β → P → Prop}
    (h : Locked D Others guard π x p (fun a y => Locked D Others guard π y (f a) Q X) X) :
    Locked D Others guard π x (p.bind f) Q X := by
  intro log held c hg hx
  apply Database.wp_bind
  apply Database.wp_mono (h log held c hg hx)
  · intro a log' held' c' ha
    exact ha.2 log' held' c' ha.1 rfl
  · exact fun _ _ _ _ he => he

theorem mono {p : Prog Stmt Res ε α} {Q Q' : α → P → Prop} {X' : ε → P → Prop}
    (h : Locked D Others guard π x p Q X) (hQ : ∀ a y, Q a y → Q' a y) (hX : ∀ e y, X e y → X' e y) :
    Locked D Others guard π x p Q' X' := by
  intro log held c hg hx
  apply Database.wp_mono (h log held c hg hx)
  · exact fun a log' held' c' ha => ⟨ha.1, hQ _ _ ha.2⟩
  · exact fun e log' _ c' he => hX _ _ he

theorem run {p : Prog Stmt Res ε α} {Q : α → P → Prop} {s : S}
    (h : Locked D Alone guard π (π s) p Q X) :
    match D.run p s with
    | .ok (a, s') => Q a (π s')
    | .error e => ∃ y, X e y := by
  have hrun := Database.wp_run (h [] [guard] s List.mem_cons_self rfl) fun _ => rfl
  simp only [Database.view_nil] at hrun
  cases hr : D.run p s with
  | error e =>
    simp only [hr] at hrun ⊢
    obtain ⟨log', held', he⟩ := hrun
    exact ⟨_, he⟩
  | ok r =>
    simp only [hr] at hrun ⊢
    obtain ⟨log', held', hs', -, hq⟩ := hrun
    rwa [hs']

end Locked

namespace Discipline

variable {D : Database Stmt Res ε S E L} {conflict : L → L → Bool} (T : Discipline D conflict)
variable {J : P → Prop} {guard : L} {π : S → P}

theorem frozen (hresp : ∀ e s s', π s = π s' → π (D.apply e s) = π (D.apply e s')) {I : S → Prop} :
    Frozen D (T.Others I guard (Same π)) guard π :=
  ⟨fun _ _ _ hg h => h.frozen hg, hresp⟩

theorem safe_of_locked (hevolves : ∀ s s', T.evolves s s') (F : Frozen D (T.Others (fun s => J (π s)) guard (Same π)) guard π)
    {p : Prog Stmt Res ε Unit} {x : P}
    (h : Locked D (T.Others (fun s => J (π s)) guard (Same π)) guard π x p (fun _ y => J y) (fun _ _ => True))
    {log : List E} {held : List L} {c : S} (hg : guard ∈ held) (hx : π (D.view log c) = x) :
    T.Safe (fun s => J (π s)) guard (Same π) p log held c := by
  apply Database.wp_mono (h log held c hg hx)
  · intro a log' held' c' ha c'' hc''
    have hπ : π (D.view log' c'') = π (D.view log' c') := F.view log' (hc''.frozen ha.1)
    have hJ : J (π (D.view log' c'')) := hπ ▸ ha.2
    exact ⟨hJ, Or.inl ha.1, hevolves _ _⟩
  · exact fun _ _ _ _ _ => trivial

end Discipline

end Ipam.Transaction
