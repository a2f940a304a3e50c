import Ipam.Lib.Emits

/-!
Slots of the state that locks protect. A transaction that changes a slot holds its lock, so that a relation between
the committed content of a slot and the content its own log leaves there, once true, stays true until it commits.
-/

namespace Ipam.Transaction

variable {Stmt : Type} {Res : Stmt → Type} {ε α β S E L K V : Type}

structure Slots {D : Database Stmt Res ε S E L} {conflict : L → L → Bool} (T : Discipline D conflict) (K V : Type)
    where
  slot : K → S → V
  lock : K → L
  frame : ∀ k e s, lock k ∉ T.footprint e → slot k (D.apply e s) = slot k s
  respects : ∀ k e s s', slot k s = slot k s' → slot k (D.apply e s) = slot k (D.apply e s')
  agree : ∀ k s s', T.agree (lock k) s s' → slot k s' = slot k s

namespace Slots

variable {D : Database Stmt Res ε S E L} {conflict : L → L → Bool} {T : Discipline D conflict} (A : Slots T K V)
variable (I : S → Prop) (guard : L) (R : S → S → Prop) (ok : K → V → V → Prop)

theorem view_frame {k : K} {log : List E} (h : ∀ e ∈ log, A.lock k ∉ T.footprint e) (s : S) :
    A.slot k (D.view log s) = A.slot k s := by
  induction log generalizing s with
  | nil => rfl
  | cons e log ih =>
    have hrest := ih (fun e' he' => h e' (List.mem_cons_of_mem _ he')) (D.apply e s)
    exact hrest.trans (A.frame k e s (h e List.mem_cons_self))

theorem view_respects {k : K} (log : List E) {s s' : S} (h : A.slot k s = A.slot k s') :
    A.slot k (D.view log s) = A.slot k (D.view log s') := by
  induction log generalizing s s' with
  | nil => exact h
  | cons e log ih => exact ih (A.respects k e s s' h)

def Related (c s : S) : Prop :=
  ∀ k, ok k (A.slot k c) (A.slot k s)

structure Calm (log : List E) (held : List L) (c : S) : Prop where
  inv : I c
  covered : ∀ e ∈ log, ∀ l ∈ T.footprint e, l ∈ held
  related : A.Related ok c (D.view log c)

variable {A I guard R ok}

theorem Calm.others (hrefl : ∀ k v, ok k v v) {log : List E} {held : List L} {c c' : S} (h : A.Calm I ok log held c)
    (hc : T.Others I guard R held c c') : A.Calm I ok log held c' := by
  refine ⟨hc.inv, h.covered, ?_⟩
  intro k
  by_cases hlock : A.lock k ∈ held
  · have hsame : A.slot k c' = A.slot k c := A.agree k c c' (hc.agree _ hlock)
    rw [A.view_respects log hsame, hsame]
    exact h.related k
  · have hframe : ∀ e ∈ log, A.lock k ∉ T.footprint e := fun e he hl => hlock (h.covered e he _ hl)
    rw [A.view_frame hframe]
    exact hrefl k _

theorem Calm.exec {log : List E} {held : List L} {c : S} (h : A.Calm I ok log held c) {q : Stmt} {r : Res q} {es : List E}
    (hexec : D.exec q (D.view log c) = .ok (r, es)) (hrelated : A.Related ok c (D.view (log ++ es) c)) :
    A.Calm I ok (log ++ es) (held ++ D.locks q (D.view log c)) c := by
  refine ⟨h.inv, ?_, hrelated⟩
  intro e he l hl
  rcases List.mem_append.mp he with he | he
  · exact List.mem_append_left _ (h.covered e he l hl)
  · exact List.mem_append_right _ (T.locks_cover q _ r es hexec e he l hl)

variable (A I guard R ok)

def Triple (P : List L → S → Prop) (p : Prog Stmt Res ε α) (Q : α → List L → S → Prop) : Prop :=
  ∀ log held c, A.Calm I ok log held c → P held c →
    D.wp (T.Others I guard R) (fun a log' held' c' => A.Calm I ok log' held' c' ∧ Q a held' c')
      (fun _ _ _ _ => True) p log held c

def Stable (T : Discipline D conflict) (P : List L → S → Prop) : Prop :=
  ∀ held ls c c', P held c → T.Others I guard R held c c' → P (held ++ ls) c'

variable {A I guard R ok} {P : List L → S → Prop}

namespace Triple

theorem pure {a : α} {Q : α → List L → S → Prop} (h : ∀ held c, P held c → Q a held c) :
    A.Triple I guard R ok P (.pure a) Q :=
  fun _ held c hcalm hP => ⟨hcalm, h held c hP⟩

theorem throw {e : ε} {Q : α → List L → S → Prop} : A.Triple I guard R ok P (.throw e) Q :=
  fun _ _ _ _ _ => trivial

theorem mono {p : Prog Stmt Res ε α} {P' : List L → S → Prop} {Q Q' : α → List L → S → Prop}
    (h : A.Triple I guard R ok P p Q) (hP : ∀ held c, P' held c → P held c)
    (hQ : ∀ a held c, Q a held c → Q' a held c) : A.Triple I guard R ok P' p Q' := by
  intro log held c hcalm hP'
  apply Database.wp_mono (h log held c hcalm (hP held c hP')) _ fun _ _ _ _ h => h
  exact fun a _ held' c' h' => ⟨h'.1, hQ a held' c' h'.2⟩

theorem bind {p : Prog Stmt Res ε α} {f : α → Prog Stmt Res ε β} {Q : α → List L → S → Prop}
    {Q' : β → List L → S → Prop} (hp : A.Triple I guard R ok P p Q)
    (hf : ∀ a, A.Triple I guard R ok (Q a) (f a) Q') : A.Triple I guard R ok P (p.bind f) Q' := by
  intro log held c hcalm hP
  apply Database.wp_bind
  apply Database.wp_mono (hp log held c hcalm hP) _ fun _ _ _ _ h => h
  exact fun a log' held' c' h => hf a log' held' c' h.1 h.2

theorem ofOption {e : ε} {o : Option α} {Q : α → List L → S → Prop}
    (h : ∀ a, o = some a → ∀ held c, P held c → Q a held c) :
    A.Triple I guard R ok P (Prog.ofOption e o : Prog Stmt Res ε α) Q := by
  cases o with
  | none => exact throw
  | some a => exact pure (h a rfl)

theorem call (hrefl : ∀ k v, ok k v v) (hP : Stable I guard R T P) {q : Stmt} {Q : Res q → List L → S → Prop}
    (h : ∀ log held c r es, A.Calm I ok log held c → P held c → D.exec q (D.view log c) = .ok (r, es) →
      A.Related ok c (D.view (log ++ es) c) ∧ Q r (held ++ D.locks q (D.view log c)) c) :
    A.Triple I guard R ok P (Prog.call q : Prog Stmt Res ε (Res q)) Q := by
  intro log held c hcalm hPc c' hc'
  have hcalm' : A.Calm I ok log held c' := hcalm.others hrefl hc'
  have hPc' : P held c' := by
    have := hP held [] c c' hPc hc'
    rwa [List.append_nil] at this
  cases hexec : D.exec q (D.view log c') with
  | error e => trivial
  | ok r =>
    obtain ⟨hrelated, hQ⟩ := h log held c' r.1 r.2 hcalm' hPc' hexec
    exact ⟨hcalm'.exec hexec hrelated, hQ⟩

theorem of_emits (hrefl : ∀ k v, ok k v v) (hP : Stable I guard R T P) {good : E → Prop}
    {p : Prog Stmt Res ε α} (hp : Emits D good p)
    (hgood : ∀ e held c s, good e → P held c → A.Related ok c s → A.Related ok c (D.apply e s)) :
    A.Triple I guard R ok P p fun _ => P := by
  induction p with
  | pure a => exact pure fun _ _ h => h
  | throw e => exact throw
  | step q k ih =>
    intro log held c hcalm hPc c' hc'
    have hcalm' : A.Calm I ok log held c' := hcalm.others hrefl hc'
    have hPc' : P held c' := by
      have := hP held [] c c' hPc hc'
      rwa [List.append_nil] at this
    cases hexec : D.exec q (D.view log c') with
    | error e => trivial
    | ok r =>
      obtain ⟨hes, hk⟩ := hp _ r.1 r.2 hexec
      have hrelated : ∀ es : List E, (∀ e ∈ es, good e) → ∀ s, A.Related ok c' s →
          A.Related ok c' (D.view es s) := by
        intro es
        induction es with
        | nil => exact fun _ _ h => h
        | cons e es ih' =>
          intro hgoods s hs
          apply ih' fun e' he' => hgoods e' (List.mem_cons_of_mem _ he')
          exact hgood e held c' s (hgoods e List.mem_cons_self) hPc' hs
      have hPnext : P (held ++ D.locks q (D.view log c')) c' := hP held _ c c' hPc hc'
      apply ih r.1 hk _ _ _ (hcalm'.exec hexec _) hPnext
      rw [D.view_append]
      exact hrelated r.2 hes _ hcalm'.related

theorem safe (hrefl : ∀ k v, ok k v v) (hevolves : ∀ s s', T.evolves s s')
    (hR : ∀ c s, A.Related ok c s → R c s) (hI : ∀ c s, I c → R c s → I s) {p : Prog Stmt Res ε α}
    {Q : α → List L → S → Prop} (h : A.Triple I guard R ok (fun _ _ => True) p Q) {c : S} (hc : I c) :
    T.Safe I guard R p.void [] [] c := by
  have hstart : A.Calm I ok [] [] c := ⟨hc, by simp, fun k => hrefl k _⟩
  apply Database.wp_bind
  apply Database.wp_mono (h [] [] c hstart trivial) _ fun _ _ _ _ h => h
  intro a log held c' hend c'' hc''
  have hcalm : A.Calm I ok log held c'' := hend.1.others hrefl hc''
  have hmove : R c'' (D.view log c'') := hR _ _ hcalm.related
  exact ⟨hI _ _ hcalm.inv hmove, Or.inr hmove, hevolves _ _⟩

end Triple

end Slots

end Ipam.Transaction
