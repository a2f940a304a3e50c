import Ipam.Lib.Emits

namespace Ipam.Transaction

variable {Stmt : Type} {Res : Stmt → Type} {ε α β S E L P : Type}

def AnswerRes (Res : Stmt → Type) (α : Type) : Stmt ⊕ α → Type
  | .inl q => Res q
  | .inr _ => Unit

def Prog.answered : Prog Stmt Res ε α → Prog (Stmt ⊕ α) (AnswerRes Res α) ε Unit
  | .pure a => .step (.inr a) fun _ => .pure ()
  | .throw e => .throw e
  | .step q k => .step (.inl q) fun r => (k r).answered

namespace Database

variable (D : Database Stmt Res ε S E L)

def answering (α : Type) : Database (Stmt ⊕ α) (AnswerRes Res α) ε (S × List α) (E ⊕ α) L where
  apply
    | .inl e, s => (D.apply e s.1, s.2)
    | .inr a, s => (s.1, s.2 ++ [a])
  exec
    | .inl q, s => (D.exec q s.1).map fun r => (r.1, r.2.map .inl)
    | .inr a, _ => .ok ((), [.inr a])
  locks
    | .inl q, s => D.locks q s.1
    | .inr _, _ => []

theorem answering_view (log : List E) (s : S × List α) :
    (D.answering α).view (log.map .inl) s = (D.view log s.1, s.2) := by
  induction log generalizing s with
  | nil => rfl
  | cons e log ih => exact ih _

end Database

def Along (D : Database Stmt Res ε S E L) (G : List E → List L → Prop) :
    Prog Stmt Res ε α → List E → List L → Prop
  | .pure _, log, held => G log held
  | .throw _, log, held => G log held
  | .step q k, log, held => G log held ∧
    ∀ s r es, D.exec q s = .ok (r, es) → Along D G (k r) (log ++ es) (held ++ D.locks q s)

namespace Along

variable {D : Database Stmt Res ε S E L} {G : List E → List L → Prop}

theorem now {p : Prog Stmt Res ε α} {log : List E} {held : List L} (h : Along D G p log held) : G log held := by
  cases p with
  | pure a => exact h
  | throw e => exact h
  | step q k => exact h.1

theorem of_stable {H : List E → List L → Prop} (hH : ∀ log held es ls, H log held → H (log ++ es) (held ++ ls))
    (hG : ∀ log held, H log held → G log held) (p : Prog Stmt Res ε α) {log : List E} {held : List L}
    (h : H log held) : Along D G p log held := by
  induction p generalizing log held with
  | pure a => exact hG log held h
  | throw e => exact hG log held h
  | step q k ih => exact ⟨hG log held h, fun s r es _ => ih r (hH _ _ _ _ h)⟩

theorem answered {G' : List (E ⊕ α) → List L → Prop} (hlog : ∀ log held, G log held → G' (log.map .inl) held)
    (hanswer : ∀ log held a, G log held → G' (log.map .inl ++ [.inr a]) held) {p : Prog Stmt Res ε α}
    {log : List E} {held : List L} (h : Along D G p log held) :
    Along (D.answering α) G' p.answered (log.map .inl) held := by
  induction p generalizing log held with
  | pure a =>
    refine ⟨hlog _ _ h, ?_⟩
    intro s r es hexec
    obtain ⟨-, rfl⟩ := Prod.mk.inj (Except.ok.inj hexec)
    have hheld : held ++ (D.answering α).locks (.inr a) s = held := List.append_nil held
    rw [hheld]
    exact hanswer _ _ a h
  | throw e => exact hlog _ _ h
  | step q k ih =>
    refine ⟨hlog _ _ h.1, ?_⟩
    intro s r es hexec
    have hmap : (D.exec q s.1).map (fun r => (r.1, r.2.map Sum.inl)) = .ok (r, es) := hexec
    cases hq : D.exec q s.1 with
    | error e =>
      rw [hq] at hmap
      cases hmap
    | ok res =>
      rw [hq] at hmap
      obtain ⟨rfl, rfl⟩ := Prod.mk.inj (Except.ok.inj hmap)
      have hnext := ih res.1 (h.2 s.1 res.1 res.2 hq)
      rw [List.map_append] at hnext
      exact hnext

theorem reachable {conflict : L → L → Bool} {allowed : Prog Stmt Res ε Unit → Prop}
    {cond : World Stmt Res ε S E L → Label Stmt Res ε → Prop} {init : S}
    (hallowed : ∀ p, allowed p → Along D G p [] []) {w : World Stmt Res ε S E L}
    (h : Reachable D conflict allowed cond init w) : ∀ y ∈ w.txns, G y.2.log y.2.held := by
  suffices hall : ∀ y ∈ w.txns, Along D G y.2.prog y.2.log y.2.held from fun y hy => (hall y hy).now
  induction h with
  | start => simp
  | @step w w' l _ hl _ hnext ih =>
    cases w.moves_of_next hnext with
    | @start t p _ =>
      intro y hy
      cases List.mem_cons.mp hy with
      | inl heq => exact heq ▸ hallowed p (hl t p rfl)
      | inr hy => exact ih y hy
    | fail e hfind =>
      have hx := ih _ (w.mem_of_find hfind)
      intro y hy
      rcases w.mem_set hy with rfl | ⟨hy, -⟩
      · exact hx.1
      · exact ih y hy
    | @exec t q k log es held r hfind _ hexec =>
      have hx := ih _ (w.mem_of_find hfind)
      intro y hy
      rcases w.mem_set hy with rfl | ⟨hy, -⟩
      · exact hx.2 _ r es hexec
      · exact ih y hy
    | commit _ => exact fun y hy => ih y (w.mem_remove hy).1
    | abort _ => exact fun y hy => ih y (w.mem_remove hy).1

end Along

def OnState (R : S → S → Prop) (s s' : S × List α) : Prop := R s.1 s'.1

instance (R : S → S → Prop) [h : Std.Refl R] : Std.Refl (OnState (α := α) R) := ⟨fun s => h.refl s.1⟩

instance (R : S → S → Prop) [h : IsTrans S R] : IsTrans (S × List α) (OnState R) :=
  ⟨fun s s' s'' => h.trans s.1 s'.1 s''.1⟩

namespace Discipline

variable {D : Database Stmt Res ε S E L} {conflict : L → L → Bool} (T : Discipline D conflict)

def answering (α : Type) : Discipline (D.answering α) conflict where
  footprint
    | .inl e => T.footprint e
    | .inr _ => []
  agree l s s' := T.agree l s.1 s'.1
  evolves s s' := T.evolves s.1 s'.1
  conflict_comm := T.conflict_comm
  agree_refl l s := T.agree_refl l s.1
  agree_trans l s s' s'' h h' := T.agree_trans l s.1 s'.1 s''.1 h h'
  agree_apply l e s h := by
    cases e with
    | inl e => exact T.agree_apply l e s.1 h
    | inr a => exact T.agree_refl l s.1
  locks_cover q s r es h := by
    cases q with
    | inr a =>
      obtain ⟨-, rfl⟩ := Prod.mk.inj (Except.ok.inj h)
      simp
    | inl q =>
      have hexec : (D.exec q s.1).map (fun r => (r.1, r.2.map Sum.inl)) = .ok (r, es) := h
      cases hq : D.exec q s.1 with
      | error e =>
        rw [hq] at hexec
        cases hexec
      | ok res =>
        rw [hq] at hexec
        obtain ⟨-, rfl⟩ := Prod.mk.inj (Except.ok.inj hexec)
        intro e he l hl
        obtain ⟨e', he', rfl⟩ := List.mem_map.mp he
        exact T.locks_cover q s.1 res.1 res.2 hq e' he' l hl
  evolves_refl s := T.evolves_refl s.1
  evolves_trans s s' s'' h h' := T.evolves_trans s.1 s'.1 s''.1 h h'

variable {I : S → Prop} {guard : L} {R : S → S → Prop} {A : α → S → Prop}

def Answers (I : S → Prop) (guard : L) (R : S → S → Prop) (A : α → S → Prop) (p : Prog Stmt Res ε α) (log : List E)
    (held : List L) (c : S) : Prop :=
  D.wp (T.Others I guard R)
    (fun a log held c => T.Commits I guard R log held c ∧
      ∀ c', T.Others I guard R held c c' → A a (D.view log c'))
    (fun _ _ _ _ => True) p log held c

theorem Answers.safe [IsTrans S R] (hA : ∀ a s s', A a s → T.evolves s s' → A a s') {p : Prog Stmt Res ε α} {log : List E}
    {held : List L} {s : S × List α} (h : T.Answers I guard R A p log held s.1) :
    (T.answering α).Safe (fun s => I s.1 ∧ ∀ a ∈ s.2, A a s.1) guard (OnState R) p.answered
      (log.map .inl) held s := by
  have hothers : ∀ held {s s' : S × List α},
      (T.answering α).Others (fun s => I s.1 ∧ ∀ a ∈ s.2, A a s.1) guard (OnState R) held s s' →
        T.Others I guard R held s.1 s'.1 :=
    fun _ _ _ h => ⟨h.inv.1, h.agree, h.frozen, h.evolves⟩
  induction p generalizing log held s with
  | throw e => trivial
  | step q k ih =>
    intro s' hs'
    have hstep := h s'.1 (hothers held hs')
    have hexec : (D.answering α).exec (.inl q) ((D.answering α).view (log.map .inl) s') =
        (D.exec q (D.view log s'.1)).map fun r => (r.1, r.2.map .inl) := by
      rw [D.answering_view]
      rfl
    have hlocks : (D.answering α).locks (.inl q) ((D.answering α).view (log.map .inl) s') =
        D.locks q (D.view log s'.1) := by
      rw [D.answering_view]
      rfl
    rw [hexec, hlocks]
    cases hq : D.exec q (D.view log s'.1) with
    | error e => trivial
    | ok r =>
      simp only [hq] at hstep
      have hnext := ih r.1 hstep
      rw [List.map_append] at hnext
      exact hnext
  | pure a =>
    intro s' hs' s'' hs''
    have hboth : T.Others I guard R held s.1 s''.1 := by
      have hlast : T.Others I guard R held s'.1 s''.1 :=
        Others.weaken T (hothers _ hs'')
      exact Others.trans T (hothers held hs') hlast
    obtain ⟨hinv, hguard, hevolves⟩ := h.1 s''.1 hboth
    have hview : (D.answering α).view (log.map .inl ++ [.inr a]) s'' = (D.view log s''.1, s''.2 ++ [a]) := by
      rw [(D.answering α).view_append, D.answering_view]
      rfl
    have hanswers : ∀ b ∈ s''.2 ++ [a], A b (D.view log s''.1) := by
      intro b hb
      rcases List.mem_append.mp hb with hb | hb
      · exact hA b _ _ (hs''.inv.2 b hb) hevolves
      · rw [List.mem_singleton.mp hb]
        exact h.2 s''.1 hboth
    rw [hview]
    refine ⟨⟨hinv, hanswers⟩, ?_, hevolves⟩
    rcases hguard with hguard | hguard
    · exact Or.inl (List.mem_append_left _ hguard)
    · exact Or.inr hguard

theorem reachable_answers [Std.Refl R] [IsTrans S R] {allowed : Prog Stmt Res ε α → Prop}
    {cond : World (Stmt ⊕ α) (AnswerRes Res α) ε (S × List α) (E ⊕ α) L → Label (Stmt ⊕ α) (AnswerRes Res α) ε → Prop}
    {init : S} (hguard : conflict guard guard = true) (hA : ∀ a s s', A a s → T.evolves s s' → A a s')
    (hinit : I init) (hsafe : ∀ p, allowed p → ∀ c, I c → T.Answers I guard R A p [] [] c)
    {w : World (Stmt ⊕ α) (AnswerRes Res α) ε (S × List α) (E ⊕ α) L}
    (h : Reachable (D.answering α) conflict (fun q => ∃ p, allowed p ∧ q = p.answered) cond (init, []) w) :
    I w.committed.1 ∧ ∀ a ∈ w.committed.2, A a w.committed.1 := by
  apply (T.answering α).reachable_inv (I := fun s => I s.1 ∧ ∀ a ∈ s.2, A a s.1) (R := OnState R) hguard
    ⟨hinit, by simp⟩ _ h
  rintro q ⟨p, hp, rfl⟩ c hc
  exact Answers.safe T hA (hsafe p hp c.1 hc.1)

end Discipline

end Ipam.Transaction
