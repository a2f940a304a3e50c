import Ipam.Lib.Answers

namespace Ipam.Transaction

variable {Stmt : Type} {Res : Stmt → Type} {ε α β S E L K : Type}

section

variable [DecidableEq K]

def stamp (touched : Option K) (version : K → ℕ) : K → ℕ :=
  match touched with
  | some k => Function.update version k (version k + 1)
  | none => version

/-- `touches` is the document that an effect writes, `reads` the documents whose present version a statement reads. -/
def Database.versioned (D : Database Stmt Res ε S E L) (touches : E → Option K) (reads : Stmt → S → List K) :
    Database Stmt Res ε (S × (K → ℕ)) (E ⊕ K × ℕ) L where
  apply
    | .inl e, s => (D.apply e s.1, stamp (touches e) s.2)
    | .inr _, s => s
  exec q s := (D.exec q s.1).map fun r =>
    (r.1, (reads q s.1).map (fun k => .inr (k, s.2 k)) ++ r.2.map .inl)
  locks q s := D.locks q s.1

section

variable (touches : E → Option K) (k : K)

def changes : E ⊕ K × ℕ → Bool
  | .inl e => touches e = some k
  | .inr _ => false

def noted : E ⊕ K × ℕ → Option ℕ
  | .inl _ => none
  | .inr (j, v) => if j = k then some v else none

def writes (log : List (E ⊕ K × ℕ)) : Bool :=
  log.any (changes touches k)

def copies (log : List (E ⊕ K × ℕ)) : List ℕ :=
  (log.takeWhile fun e => !changes touches k e).filterMap (noted k)

def basis (log : List (E ⊕ K × ℕ)) : Option ℕ :=
  (copies touches k log).getLast?

end

section

variable {touches : E → Option K} {k : K}

theorem writes_append (log es : List (E ⊕ K × ℕ)) :
    writes touches k (log ++ es) = (writes touches k log || writes touches k es) :=
  List.any_append

theorem copies_cons (e : E ⊕ K × ℕ) (log : List (E ⊕ K × ℕ)) :
    copies touches k (e :: log) = if changes touches k e then [] else (noted k e).toList ++ copies touches k log := by
  by_cases h : changes touches k e = true
  · simp [copies, h]
  · cases hn : noted k e with
    | none => simp [copies, h, hn]
    | some v => simp [copies, h, hn]

theorem copies_append (log es : List (E ⊕ K × ℕ)) :
    copies touches k (log ++ es) =
      copies touches k log ++ if writes touches k log then [] else copies touches k es := by
  induction log with
  | nil => simp [copies, writes]
  | cons e log ih =>
    rw [List.cons_append, copies_cons, copies_cons, ih]
    cases h : changes touches k e with
    | true => simp [writes, h]
    | false =>
      have hw : writes touches k (e :: log) = writes touches k log := by rw [writes, List.any_cons, h, Bool.false_or, writes]
      rw [hw]
      simp

theorem mem_of_copies {v : ℕ} {log : List (E ⊕ K × ℕ)} (h : v ∈ copies touches k log) : .inr (k, v) ∈ log := by
  obtain ⟨e, he, hnoted⟩ := List.mem_filterMap.mp h
  cases e with
  | inl e => cases hnoted
  | inr note =>
    obtain ⟨j, u⟩ := note
    simp only [noted] at hnoted
    split at hnoted
    · rename_i hj
      obtain rfl := Option.some.inj hnoted
      exact hj ▸ List.takeWhile_subset _ he
    · cases hnoted

variable {D : Database Stmt Res ε S E L} {reads : Stmt → S → List K}

theorem version_view {log : List (E ⊕ K × ℕ)} (h : writes touches k log = false) (s : S × (K → ℕ)) :
    ((D.versioned touches reads).view log s).2 k = s.2 k := by
  induction log generalizing s with
  | nil => rfl
  | cons e log ih =>
    simp only [writes, List.any_cons, Bool.or_eq_false_iff] at h
    refine (ih h.2 _).trans ?_
    cases e with
    | inr note => rfl
    | inl e =>
      have he : touches e ≠ some k := by simpa [changes] using h.1
      change stamp (touches e) s.2 k = s.2 k
      cases hj : touches e with
      | none => rfl
      | some j =>
        have hne : k ≠ j := fun heq => he (heq ▸ hj)
        exact Function.update_of_ne hne _ _

theorem versioned_exec {q : Stmt} {s : S × (K → ℕ)} {r : Res q} {es : List (E ⊕ K × ℕ)}
    (h : (D.versioned touches reads).exec q s = .ok (r, es)) :
    ∃ fs, D.exec q s.1 = .ok (r, fs) ∧ es = (reads q s.1).map (fun k => .inr (k, s.2 k)) ++ fs.map .inl := by
  have hmap : (D.exec q s.1).map (fun r =>
      (r.1, (reads q s.1).map (fun k => Sum.inr (k, s.2 k)) ++ r.2.map Sum.inl)) = .ok (r, es) := h
  cases hq : D.exec q s.1 with
  | error e =>
    rw [hq] at hmap
    cases hmap
  | ok res =>
    rw [hq] at hmap
    obtain ⟨rfl, rfl⟩ := Prod.mk.inj (Except.ok.inj hmap)
    exact ⟨res.2, rfl, rfl⟩

theorem copies_notes (ks : List K) (v : K → ℕ) (es : List (E ⊕ K × ℕ)) (h : k ∈ ks) :
    copies touches k (ks.map (fun j => .inr (j, v j)) ++ es) ≠ [] := by
  obtain ⟨pre, post, rfl⟩ := List.append_of_mem h
  have hpre : writes touches k (pre.map fun j => (Sum.inr (j, v j) : E ⊕ K × ℕ)) = false := by
    simp [writes, changes]
  rw [List.map_append, List.map_cons, List.append_assoc, List.cons_append, copies_append, hpre, if_neg (by simp),
    copies_cons]
  simp [changes, noted]

end

end

def Informed (D : Database Stmt Res ε S E L) (touches : E → Option K) (reads : Stmt → S → List K) :
    (K → Prop) → Prog Stmt Res ε α → Prop
  | _, .pure _ => True
  | _, .throw _ => True
  | known, .step q next => ∀ s r es, D.exec q s = .ok (r, es) →
    (∀ e ∈ es, ∀ k, touches e = some k → known k ∨ k ∈ reads q s) ∧
      Informed D touches reads (fun k => known k ∨ k ∈ reads q s) (next r)

namespace Informed

variable {D : Database Stmt Res ε S E L} {touches : E → Option K} {reads : Stmt → S → List K} {known : K → Prop}

theorem mono {known' : K → Prop} {p : Prog Stmt Res ε α} (h : Informed D touches reads known p)
    (hknown : ∀ k, known k → known' k) : Informed D touches reads known' p := by
  induction p generalizing known known' with
  | pure a => trivial
  | throw e => trivial
  | step q next ih =>
    intro s r es hexec
    obtain ⟨hes, hnext⟩ := h s r es hexec
    exact ⟨fun e he k hk => (hes e he k hk).imp (hknown k) id, ih r hnext fun k hk => hk.imp (hknown k) id⟩

theorem bind {p : Prog Stmt Res ε α} {f : α → Prog Stmt Res ε β} (hp : Informed D touches reads known p)
    (hf : ∀ a, Informed D touches reads known (f a)) : Informed D touches reads known (p >>= f) := by
  induction p generalizing known with
  | pure a => exact hf a
  | throw e => trivial
  | step q next ih =>
    intro s r es hexec
    obtain ⟨hes, hnext⟩ := hp s r es hexec
    exact ⟨hes, ih r hnext fun a => (hf a).mono fun _ hk => .inl hk⟩

theorem ite {c : Prop} [Decidable c] {p q : Prog Stmt Res ε α} (hp : Informed D touches reads known p)
    (hq : Informed D touches reads known q) : Informed D touches reads known (if c then p else q) := by
  split
  · exact hp
  · exact hq

theorem of_emits {p : Prog Stmt Res ε α} (h : Emits D (fun e => ∀ k, touches e = some k → known k) p) :
    Informed D touches reads known p := by
  induction p generalizing known with
  | pure a => trivial
  | throw e => trivial
  | step q next ih =>
    intro s r es hexec
    obtain ⟨hes, hnext⟩ := h s r es hexec
    refine ⟨fun e he k hk => .inl (hes e he k hk), ih r (hnext.mono fun e he k hk => .inl (he k hk))⟩

theorem along [DecidableEq K] {p : Prog Stmt Res ε α} (h : Informed D touches reads known p) {log : List (E ⊕ K × ℕ)}
    {held : List L} (hknown : ∀ k, known k → copies touches k log ≠ [])
    (hlog : ∀ k, writes touches k log = true → copies touches k log ≠ []) :
    Along (D.versioned touches reads) (fun log _ => ∀ k, writes touches k log = true → copies touches k log ≠ [])
      p log held := by
  induction p generalizing known log held with
  | pure a => exact hlog
  | throw e => exact hlog
  | step q next ih =>
    refine ⟨hlog, ?_⟩
    intro s r es hexec
    obtain ⟨fs, hfs, rfl⟩ := versioned_exec hexec
    obtain ⟨hes, hnext⟩ := h s.1 r fs hfs
    have hgrown : ∀ k, known k ∨ k ∈ reads q s.1 →
        copies touches k (log ++ ((reads q s.1).map (fun k => .inr (k, s.2 k)) ++ fs.map .inl)) ≠ [] := by
      intro k hk
      rw [copies_append]
      by_cases hold : copies touches k log = []
      · have hread := hk.resolve_left fun hknow => hknown k hknow hold
        have hw : ¬ writes touches k log = true := fun hw => hlog k hw hold
        rw [hold, List.nil_append, if_neg hw]
        exact copies_notes _ _ _ hread
      · simp [hold]
    apply ih r hnext hgrown
    intro k hw
    rw [writes_append, Bool.or_eq_true] at hw
    cases hw with
    | inl hw =>
      rw [copies_append]
      simp [hlog k hw]
    | inr hw =>
      apply hgrown
      obtain ⟨e, he, hchange⟩ := List.any_eq_true.mp hw
      cases List.mem_append.mp he with
      | inl he =>
        obtain ⟨j, -, rfl⟩ := List.mem_map.mp he
        cases hchange
      | inr he =>
        obtain ⟨f, hf, rfl⟩ := List.mem_map.mp he
        exact hes f hf k (by simpa [changes] using hchange)

end Informed

section

variable [DecidableEq K] {D : Database Stmt Res ε S E L} {touches : E → Option K} {reads : Stmt → S → List K}
  {conflict : L → L → Bool} {lockOf : K → L}

/-- A transaction commits a write of a document only while no other open transaction has a copy of it that it read
without the document's lock. -/
def CommitsUnread (touches : E → Option K) (lockOf : K → L) (w : World Stmt Res ε (S × (K → ℕ)) (E ⊕ K × ℕ) L) :
    Label Stmt Res ε → Prop
  | .commit t => ∀ x, w.find t = some x → ∀ k, writes touches k x.log = true →
    ∀ y ∈ w.txns, y.1 ≠ t → copies touches k y.2.log ≠ [] → lockOf k ∈ y.2.held
  | _ => True

structure Current (touches : E → Option K) (lockOf : K → L)
    (w : World Stmt Res ε (S × (K → ℕ)) (E ⊕ K × ℕ) L) : Prop where
  locked : ∀ y ∈ w.txns, ∀ k, writes touches k y.2.log = true → lockOf k ∈ y.2.held
  single : ∀ y ∈ w.txns, ∀ z ∈ w.txns, ∀ k, lockOf k ∈ y.2.held → lockOf k ∈ z.2.held → y.1 = z.1
  current : ∀ y ∈ w.txns, ∀ k, ∀ v ∈ copies touches k y.2.log, w.committed.2 k = v

variable {w w' : World Stmt Res ε (S × (K → ℕ)) (E ⊕ K × ℕ) L}

theorem Current.sub (h : Current touches lockOf w) (htxns : ∀ y ∈ w'.txns, y ∈ w.txns)
    (hversion : ∀ y ∈ w'.txns, ∀ k, copies touches k y.2.log ≠ [] → w'.committed.2 k = w.committed.2 k) :
    Current touches lockOf w' := by
  refine ⟨fun y hy => h.locked y (htxns y hy), fun y hy z hz => h.single y (htxns y hy) z (htxns z hz), ?_⟩
  intro y hy k v hv
  rw [hversion y hy k (List.ne_nil_of_mem hv)]
  exact h.current y (htxns y hy) k v hv

theorem Current.set (h : Current touches lockOf w) {t : ℕ} {x : Txn Stmt Res ε (E ⊕ K × ℕ) L}
    (hlocked : ∀ k, writes touches k x.log = true → lockOf k ∈ x.held)
    (hsingle : ∀ y ∈ w.txns, y.1 ≠ t → ∀ k, lockOf k ∈ y.2.held → lockOf k ∉ x.held)
    (hcurrent : ∀ k, ∀ v ∈ copies touches k x.log, w.committed.2 k = v) : Current touches lockOf (w.set t x) := by
  refine ⟨?_, ?_, ?_⟩
  · intro y hy
    rcases w.mem_set hy with rfl | ⟨hy, -⟩
    · exact hlocked
    · exact h.locked y hy
  · intro y hy z hz k hhy hhz
    rcases w.mem_set hy with rfl | ⟨hy, hyt⟩
    · rcases w.mem_set hz with rfl | ⟨hz, hzt⟩
      · rfl
      · exact absurd hhy (hsingle z hz hzt k hhz)
    · rcases w.mem_set hz with rfl | ⟨hz, -⟩
      · exact absurd hhz (hsingle y hy hyt k hhy)
      · exact h.single y hy z hz k hhy hhz
  · intro y hy
    rcases w.mem_set hy with rfl | ⟨hy, -⟩
    · exact hcurrent
    · exact h.current y hy

theorem Current.start (h : Current touches lockOf w) (t : ℕ) (p : Prog Stmt Res ε Unit) :
    Current touches lockOf { w with txns := (t, ⟨p, [], []⟩) :: w.txns } := by
  refine ⟨?_, ?_, ?_⟩
  · intro y hy k hw
    cases List.mem_cons.mp hy with
    | inl heq =>
      rw [heq] at hw
      cases hw
    | inr hy => exact h.locked y hy k hw
  · intro y hy z hz k hhy hhz
    cases List.mem_cons.mp hy with
    | inl heq => simp [heq] at hhy
    | inr hy =>
      cases List.mem_cons.mp hz with
      | inl heq => simp [heq] at hhz
      | inr hz => exact h.single y hy z hz k hhy hhz
  · intro y hy k v hv
    cases List.mem_cons.mp hy with
    | inl heq => simp [heq, copies] at hv
    | inr hy => exact h.current y hy k v hv

theorem Current.exec (hconflict : ∀ k, conflict (lockOf k) (lockOf k) = true)
    (hcover : ∀ q s r es, D.exec q s = .ok (r, es) → ∀ e ∈ es, ∀ k, touches e = some k → lockOf k ∈ D.locks q s)
    (h : Current touches lockOf w) {t : ℕ} {q : Stmt} {next : Res q → Prog Stmt Res ε Unit}
    {log es : List (E ⊕ K × ℕ)} {held : List L} {r : Res q}
    (hfind : w.find t = some ⟨.step q next, log, held⟩)
    (hblocked : w.blocked conflict t (D.locks q ((D.versioned touches reads).view log w.committed).1) = false)
    (hexec : (D.versioned touches reads).exec q ((D.versioned touches reads).view log w.committed) = .ok (r, es)) :
    Current touches lockOf (w.set t ⟨next r, log ++ es,
      held ++ D.locks q ((D.versioned touches reads).view log w.committed).1⟩) := by
  have hx := w.mem_of_find hfind
  obtain ⟨fs, hfs, rfl⟩ := versioned_exec hexec
  apply h.set
  · intro k hw
    rw [writes_append, Bool.or_eq_true] at hw
    cases hw with
    | inl hw => exact List.mem_append_left _ (h.locked _ hx k hw)
    | inr hw =>
      obtain ⟨e, he, hchange⟩ := List.any_eq_true.mp hw
      cases List.mem_append.mp he with
      | inl he =>
        obtain ⟨j, -, rfl⟩ := List.mem_map.mp he
        cases hchange
      | inr he =>
        obtain ⟨f, hf, rfl⟩ := List.mem_map.mp he
        exact List.mem_append_right _ (hcover q _ r fs hfs f hf k (by simpa [changes] using hchange))
  · intro y hy hyt k hhy hhx
    cases List.mem_append.mp hhx with
    | inl hheld => exact hyt (h.single y hy _ hx k hhy hheld)
    | inr hlock =>
      have hfree := w.apart_of_not_blocked hblocked hy hyt hhy hlock
      rw [hconflict] at hfree
      cases hfree
  · intro k v hv
    rw [copies_append] at hv
    cases List.mem_append.mp hv with
    | inl hv => exact h.current _ hx k v hv
    | inr hv =>
      -- a version read now is the committed one, unless the transaction has written the document itself
      split at hv
      · simp at hv
      rename_i hw
      have hnote := mem_of_copies hv
      simp only [List.mem_append, List.mem_map, Sum.inr.injEq, Prod.mk.injEq, reduceCtorEq, and_false, exists_false,
        or_false] at hnote
      obtain ⟨j, -, rfl, rfl⟩ := hnote
      exact (version_view (by simpa using hw) _).symm

theorem Reachable.current {allowed : Prog Stmt Res ε Unit → Prop} {init : S × (K → ℕ)}
    (hconflict : ∀ k, conflict (lockOf k) (lockOf k) = true)
    (hcover : ∀ q s r es, D.exec q s = .ok (r, es) → ∀ e ∈ es, ∀ k, touches e = some k → lockOf k ∈ D.locks q s)
    (h : Reachable (D.versioned touches reads) conflict allowed (CommitsUnread touches lockOf) init w) :
    Current touches lockOf w := by
  induction h with
  | start => exact ⟨by simp, by simp, by simp⟩
  | @step w w' l _ _ hguard hnext ih =>
    cases w.moves_of_next hnext with
    | start p _ => exact ih.start _ p
    | fail e hfind =>
      have hx := w.mem_of_find hfind
      apply ih.set
      · exact ih.locked _ hx
      · exact fun y hy hyt k hhy hhx => hyt (ih.single y hy _ hx k hhy hhx)
      · exact ih.current _ hx
    | exec hfind hblocked hexec => exact ih.exec hconflict hcover hfind hblocked hexec
    | @commit t a log held hfind =>
      apply ih.sub fun y hy => (w.mem_remove hy).1
      intro y hy k hcopy
      obtain ⟨hy, hyt⟩ := w.mem_remove hy
      apply version_view
      rw [Bool.eq_false_iff]
      intro hw
      have hx := w.mem_of_find hfind
      exact hyt (ih.single y hy _ hx k (hguard _ hfind k hw y hy hyt hcopy) (ih.locked _ hx k hw))
    | abort _ => exact ih.sub (fun y hy => (w.mem_remove hy).1) fun _ _ _ _ => rfl

theorem Reachable.basis_eq {allowed : Prog Stmt Res ε Unit → Prop} {init : S × (K → ℕ)}
    (hconflict : ∀ k, conflict (lockOf k) (lockOf k) = true)
    (hcover : ∀ q s r es, D.exec q s = .ok (r, es) → ∀ e ∈ es, ∀ k, touches e = some k → lockOf k ∈ D.locks q s)
    (hallowed : ∀ p, allowed p → Informed D touches reads (fun _ => False) p)
    (h : Reachable (D.versioned touches reads) conflict allowed (CommitsUnread touches lockOf) init w)
    {y : ℕ × Txn Stmt Res ε (E ⊕ K × ℕ) L} (hy : y ∈ w.txns) {k : K} (hw : writes touches k y.2.log = true) :
    basis touches k y.2.log = some (w.committed.2 k) := by
  have hinformed : ∀ y ∈ w.txns, ∀ k, writes touches k y.2.log = true → copies touches k y.2.log ≠ [] := by
    apply Along.reachable (G := fun log _ => ∀ k, writes touches k log = true → copies touches k log ≠ []) _ h
    exact fun p hp => (hallowed p hp).along (by simp) (by simp [writes])
  obtain ⟨v, hv⟩ := Option.ne_none_iff_exists'.mp
    (fun hnone => hinformed y hy k hw (List.getLast?_eq_none_iff.mp hnone))
  rw [basis, hv, (h.current hconflict hcover).current y hy k v (List.mem_of_getLast? hv)]

end

end Ipam.Transaction
