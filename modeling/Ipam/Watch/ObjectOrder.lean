import Ipam.Watch.Poll

/-!
Writers that change objects under their row locks. A transaction takes its number with its first write or with its
first row lock; it draws an object's version and writes the changelog row while it holds the object's lock, which it
keeps to its end. `Release` deletes allocation rows, and `ensureLevel` inserts its identity row, before they wait for
the pool's row; `AllocatePrefix` and `GuaranteedUpdate` begin with the lock.
-/

namespace Ipam.Watch

open Changefeed

variable {δ : Type}

structure Writers (δ : Type) where
  log : Changelog δ
  holders : List (KeyText × ℕ)
  drawn : List (ℕ × KeyText × ℕ)
  sequence : ℕ

namespace Writers

def initial : Writers δ :=
  ⟨Log.empty, [], [], 0⟩

inductive Step (ok : Writers δ → ℕ → KeyText → Prop) : Writers δ → Writers δ → Prop
  | begin (a : Writers δ) : Step ok a { a with log := a.log.begin }
  | lock (a : Writers δ) (x : ℕ) (k : KeyText) (hrun : a.log.Running x)
      (hfree : ∀ y, (k, y) ∈ a.holders → a.log.Running y → y = x) (hok : ok a x k) :
      Step ok a { a with holders := (k, x) :: a.holders }
  | nextval (a : Writers δ) (x : ℕ) (k : KeyText) (hrun : a.log.Running x) (hheld : (k, x) ∈ a.holders)
      (hnone : ∀ p ∈ a.drawn, p.1 ≠ x) :
      Step ok a { a with drawn := (x, k, a.sequence + 1) :: a.drawn, sequence := a.sequence + 1 }
  | write (a : Writers δ) (e : Entry δ) (hrun : a.log.Running e.commitXid) (hid : a.log.drawn < e.id)
      (hdrawn : (e.commitXid, e.key, e.resourceVersion) ∈ a.drawn) :
      Step ok a { a with log := a.log.insert e hrun hid, drawn := a.drawn.filter (·.1 ≠ e.commitXid) }
  | finish (a : Writers δ) (x : ℕ) (f : Fate) (hrun : a.log.Running x) (hf : f ≠ .running) :
      Step ok a { a with log := a.log.finish x f }

def Later (a : Writers δ) (x : ℕ) (k : KeyText) : Prop :=
  ∀ e ∈ a.log.visible, e.key = k → e.commitXid < x

def Standing (a : Writers δ) (e : Entry δ) : Prop :=
  e ∈ a.log.rows ∧ a.log.fates[e.commitXid]? ≠ some .aborted

structure Ordered (a : Writers δ) : Prop where
  began : ∀ k x, (k, x) ∈ a.holders → x < a.log.fates.length
  drawnBegan : ∀ x k v, (x, k, v) ∈ a.drawn → x < a.log.fates.length
  versions : ∀ e ∈ a.log.rows, e.resourceVersion ≤ a.sequence
  single : ∀ k x y, (k, x) ∈ a.holders → (k, y) ∈ a.holders → a.log.Running x → a.log.Running y → x = y
  held : ∀ e ∈ a.log.rows, a.log.Running e.commitXid → (e.key, e.commitXid) ∈ a.holders
  drawn : ∀ x k v, (x, k, v) ∈ a.drawn → a.log.Running x →
    (k, x) ∈ a.holders ∧ v ≤ a.sequence ∧ ∀ e, a.Standing e → e.key = k → e.resourceVersion < v
  behind : ∀ k x, (k, x) ∈ a.holders → a.log.Running x → ∀ e, a.Standing e → e.key = k → e.commitXid ≤ x
  ordered : ∀ e e', a.Standing e → a.Standing e' → e.key = e'.key → pos e < pos e' →
    e.resourceVersion < e'.resourceVersion

theorem initial_ordered : (initial : Writers δ).Ordered where
  began _ _ hx := nomatch hx
  drawnBegan _ _ _ hx := nomatch hx
  versions _ he := nomatch he
  single _ _ _ hx := nomatch hx
  held _ he := nomatch he
  drawn _ _ _ hx := nomatch hx
  behind _ _ hx := nomatch hx
  ordered _ _ he := nomatch he.1

theorem Standing.of_step {a : Writers δ} {L : Changelog δ} (hstep : a.log.Step L) {e : Entry δ} (he : e ∈ a.log.rows)
    (h : L.fates[e.commitXid]? ≠ some .aborted) : a.Standing e :=
  ⟨he, fun habort => h (hstep.fate habort (by decide))⟩

theorem Ordered.log {a : Writers δ} (h : a.Ordered) {L : Changelog δ} (hstep : a.log.Step L)
    (hrows : L.rows = a.log.rows) : ({ a with log := L } : Writers δ).Ordered := by
  have hstanding : ∀ e, ({ a with log := L } : Writers δ).Standing e → a.Standing e :=
    fun e he => Standing.of_step hstep (hrows ▸ he.1) he.2
  refine ⟨?_, ?_, ?_, ?_, ?_, ?_, ?_, ?_⟩
  · exact fun k x hx => lt_of_lt_of_le (h.began k x hx) hstep.length_le
  · exact fun x k v hx => lt_of_lt_of_le (h.drawnBegan x k v hx) hstep.length_le
  · exact fun e he => h.versions e (hrows ▸ he)
  · intro k x y hx hy hrx hry
    exact h.single k x y hx hy (hstep.running_of_lt (h.began k x hx) hrx) (hstep.running_of_lt (h.began k y hy) hry)
  · intro e he hrun
    have he' : e ∈ a.log.rows := hrows ▸ he
    exact h.held e he' (hstep.running_of_lt (a.log.began e he') hrun)
  · intro x k v hx hrun
    obtain ⟨hheld, hv, hall⟩ := h.drawn x k v hx (hstep.running_of_lt (h.drawnBegan x k v hx) hrun)
    exact ⟨hheld, hv, fun e he hk => hall e (hstanding e he) hk⟩
  · intro k x hx hrun e he hk
    exact h.behind k x hx (hstep.running_of_lt (h.began k x hx) hrun) e (hstanding e he) hk
  · exact fun e e' he he' => h.ordered e e' (hstanding e he) (hstanding e' he')

theorem Ordered.lock {a : Writers δ} (h : a.Ordered) {x : ℕ} {k : KeyText} (hrun : a.log.Running x)
    (hfree : ∀ y, (k, y) ∈ a.holders → a.log.Running y → y = x) (hlater : a.Later x k) :
    ({ a with holders := (k, x) :: a.holders } : Writers δ).Ordered := by
  refine ⟨?_, h.drawnBegan, h.versions, ?_, ?_, ?_, ?_, h.ordered⟩
  · intro k' y hy
    rcases List.mem_cons.mp hy with heq | hy
    · cases heq
      exact (List.getElem?_eq_some_iff.mp hrun).1
    · exact h.began k' y hy
  · intro k' y z hy hz hry hrz
    rcases List.mem_cons.mp hy with heq | hy
    · cases heq
      rcases List.mem_cons.mp hz with heq | hz
      · exact (Prod.mk.inj heq).2.symm
      · exact (hfree z hz hrz).symm
    · rcases List.mem_cons.mp hz with heq | hz
      · cases heq
        exact hfree y hy hry
      · exact h.single k' y z hy hz hry hrz
  · exact fun e he hr => List.mem_cons_of_mem _ (h.held e he hr)
  · intro y k' v hy hr
    obtain ⟨hheld, hv, hall⟩ := h.drawn y k' v hy hr
    exact ⟨List.mem_cons_of_mem _ hheld, hv, hall⟩
  · intro k' y hy hr e he hk
    rcases List.mem_cons.mp hy with heq | hy
    · cases heq
      -- a standing row of the object is the new holder's own or a committed one
      cases hfate : a.log.fates[e.commitXid]? with
      | none =>
        have hlt := a.log.began e he.1
        rw [xid_eq] at hlt
        rw [List.getElem?_eq_getElem hlt] at hfate
        cases hfate
      | some f =>
        cases f with
        | running => exact (hfree e.commitXid (hk ▸ h.held e he.1 hfate) hfate).le
        | committed => exact (hlater e (Log.mem_visible.mpr ⟨he.1, hfate⟩) hk).le
        | aborted => exact absurd hfate he.2
    · exact h.behind k' y hy hr e he hk

theorem Ordered.nextval {a : Writers δ} (h : a.Ordered) {x : ℕ} {k : KeyText} (hrun : a.log.Running x)
    (hheld : (k, x) ∈ a.holders) :
    ({ a with drawn := (x, k, a.sequence + 1) :: a.drawn, sequence := a.sequence + 1 } : Writers δ).Ordered := by
  refine ⟨h.began, ?_, ?_, h.single, h.held, ?_, h.behind, h.ordered⟩
  · intro y k' v hy
    rcases List.mem_cons.mp hy with heq | hy
    · cases heq
      exact (List.getElem?_eq_some_iff.mp hrun).1
    · exact h.drawnBegan y k' v hy
  · exact fun e he => (h.versions e he).trans (Nat.le_succ _)
  · intro y k' v hy hr
    rcases List.mem_cons.mp hy with heq | hy
    · cases heq
      exact ⟨hheld, le_rfl, fun e he _ => Nat.lt_succ_of_le (h.versions e he.1)⟩
    · obtain ⟨hheld', hv, hall⟩ := h.drawn y k' v hy hr
      exact ⟨hheld', hv.trans (Nat.le_succ _), hall⟩

theorem Ordered.write {a : Writers δ} (h : a.Ordered) {e : Entry δ} (hrun : a.log.Running e.commitXid)
    (hid : a.log.drawn < e.id) (hdrawn : (e.commitXid, e.key, e.resourceVersion) ∈ a.drawn) :
    ({ a with log := a.log.insert e hrun hid, drawn := a.drawn.filter (·.1 ≠ e.commitXid) } : Writers δ).Ordered := by
  obtain ⟨hheld, hv, hall⟩ := h.drawn _ _ _ hdrawn hrun
  have hmem : ∀ {r : Entry δ}, r ∈ a.log.rows ++ [e] → r ∈ a.log.rows ∨ r = e :=
    fun hr => (List.mem_append.mp hr).imp_right List.mem_singleton.mp
  -- a standing row of the same object lies before the new one
  have hbefore : ∀ r, a.Standing r → r.key = e.key → pos r < pos e ∧ r.resourceVersion < e.resourceVersion := by
    intro r hr hkey
    refine ⟨pos_lt_iff.mpr ?_, hall r hr hkey⟩
    rcases lt_or_eq_of_le (h.behind _ _ hheld hrun r hr hkey) with hlt | heq
    · exact .inl hlt
    · exact .inr ⟨heq, lt_of_le_of_lt (a.log.bounded r hr.1) hid⟩
  refine ⟨h.began, ?_, ?_, h.single, ?_, ?_, ?_, ?_⟩
  · exact fun x k v hx => h.drawnBegan x k v (List.mem_of_mem_filter hx)
  · intro r hr
    rcases hmem hr with hr | rfl
    · exact h.versions r hr
    · exact hv
  · intro r hr hrunr
    rcases hmem hr with hr | rfl
    · exact h.held r hr hrunr
    · exact hheld
  · intro x k v hx hrunx
    obtain ⟨hx, hne⟩ := List.mem_filter.mp hx
    obtain ⟨hheldx, hvx, hallx⟩ := h.drawn x k v hx hrunx
    refine ⟨hheldx, hvx, fun r hr hk => ?_⟩
    rcases hmem hr.1 with hrow | rfl
    · exact hallx r ⟨hrow, hr.2⟩ hk
    · exact absurd (h.single k x _ hheldx (hk ▸ hheld) hrunx hrun) (of_decide_eq_true hne)
  · intro k x hx hrunx r hr hk
    rcases hmem hr.1 with hrow | rfl
    · exact h.behind k x hx hrunx r ⟨hrow, hr.2⟩ hk
    · exact (h.single k x _ hx (hk ▸ hheld) hrunx hrun).ge
  · intro r r' hr hr' hkey hlt
    rcases hmem hr.1 with hrow | rfl
    · rcases hmem hr'.1 with hrow' | rfl
      · exact h.ordered r r' ⟨hrow, hr.2⟩ ⟨hrow', hr'.2⟩ hkey hlt
      · exact (hbefore r ⟨hrow, hr.2⟩ hkey).2
    · rcases hmem hr'.1 with hrow' | rfl
      · exact absurd (hlt.trans (hbefore r' ⟨hrow', hr'.2⟩ hkey.symm).1) (lt_irrefl _)
      · exact absurd hlt (lt_irrefl _)

theorem Ordered.step {a b : Writers δ} (h : a.Ordered) (hstep : Step Later a b) : b.Ordered := by
  cases hstep with
  | begin => exact h.log (.begin _) rfl
  | lock x k hrun hfree hok => exact h.lock hrun hfree hok
  | nextval x k hrun hheld hnone => exact h.nextval hrun hheld
  | write e hrun hid hdrawn => exact h.write hrun hid hdrawn
  | finish x f hrun hf => exact h.log (.finish _ x f hrun hf) rfl

theorem Step.grows {ok : Writers δ → ℕ → KeyText → Prop} {a b : Writers δ} (h : Step ok a b) : a.log.Grows b.log := by
  cases h with
  | begin => exact .single (.begin _)
  | lock x k hrun hfree hok => exact .refl
  | nextval x k hrun hheld hnone => exact .refl
  | write e hrun hid hdrawn => exact .single (.insert _ e hrun hid)
  | finish x f hrun hf => exact .single (.finish _ x f hrun hf)

end Writers

structure Watched (δ : Type) where
  writers : Writers δ
  stream : Stream δ

inductive Watched.Step (ok : Writers δ → ℕ → KeyText → Prop) (w : Request δ) (limit : ℕ) :
    Watched δ → Watched δ → Prop
  | write {a b : Writers δ} (s : Stream δ) (h : Writers.Step ok a b) : Step ok w limit ⟨a, s⟩ ⟨b, s⟩
  | read (a : Writers δ) {s s' : Stream δ} (h : Reads w limit a.log s s') : Step ok w limit ⟨a, s⟩ ⟨a, s'⟩

def Watched.initial (cursor : ℕ ×ₗ ℕ) : Watched δ :=
  ⟨Writers.initial, ⟨cursor, 0, [], .idle⟩⟩

theorem Watched.reaches {ok : Writers δ → ℕ → KeyText → Prop} {w : Request δ} {limit : ℕ} {cursor : ℕ ×ₗ ℕ}
    {a : Watched δ} (h : Relation.ReflTransGen (Watched.Step ok w limit) (.initial cursor) a) :
    Reaches w limit (World.start Log.empty cursor 0) ⟨a.writers.log, a.stream⟩ := by
  induction h with
  | refl => exact .refl
  | tail _ hstep ih =>
    cases hstep with
    | write s hwrite => exact ih.trans (reaches_of_grows hwrite.grows s)
    | read a hread => exact ih.tail (.read a.log hread)

theorem Watched.ordered {w : Request δ} {limit : ℕ} {cursor : ℕ ×ₗ ℕ} {a : Watched δ}
    (h : Relation.ReflTransGen (Watched.Step Writers.Later w limit) (.initial cursor) a) : a.writers.Ordered := by
  induction h with
  | refl => exact Writers.initial_ordered
  | tail _ hstep ih =>
    cases hstep with
    | write s hwrite => exact ih.step hwrite
    | read a hread => exact ih

theorem objectEvents_ordered (w : Request δ) (limit : ℕ) (cursor : ℕ ×ₗ ℕ) (a : Watched δ)
    (hreach : Relation.ReflTransGen (Watched.Step Writers.Later w limit) (.initial cursor) a) :
    ∃ rows, Emitted w cursor ⟨a.writers.log, a.stream⟩ rows ∧
      rows.Pairwise fun r s => r.key = s.key → r.resourceVersion < s.resourceVersion := by
  have hlive := (start_live w limit Log.empty cursor 0).reaches (Watched.reaches hreach)
  have hordered := Watched.ordered hreach
  obtain ⟨rows, hrows⟩ := hlive.emitted
  refine ⟨rows, hrows, hrows.ascending.imp_of_mem ?_⟩
  intro r s hr hs hlt hkey
  have hstanding : ∀ e ∈ rows, a.writers.Standing e := by
    intro e he
    obtain ⟨hrow, hc⟩ := Log.mem_visible.mp ((hrows.mem e).mp he).1
    refine ⟨hrow, fun habort => ?_⟩
    rw [Log.Committed, xid_eq, habort] at hc
    cases hc
  exact hordered.ordered r s (hstanding r hr) (hstanding s hs) hkey hlt

theorem Writers.changes_object {ok : Writers δ → ℕ → KeyText → Prop} (a : Writers δ) (e : Entry δ)
    (hrun : a.log.Running e.commitXid) (hid : a.log.drawn < e.id)
    (hfree : ∀ y, (e.key, y) ∈ a.holders → a.log.Running y → y = e.commitXid) (hok : ok a e.commitXid e.key)
    (hdrawn : a.drawn = []) (hversion : e.resourceVersion = a.sequence + 1) :
    Relation.ReflTransGen (Writers.Step ok) a
      ⟨(a.log.insert e hrun hid).finish e.commitXid .committed, (e.key, e.commitXid) :: a.holders, [], a.sequence + 1⟩ := by
  obtain ⟨log, holders, drawn, sequence⟩ := a
  simp only at hrun hid hfree hdrawn hversion
  subst hdrawn
  have hlock : Writers.Step ok ⟨log, holders, [], sequence⟩ ⟨log, (e.key, e.commitXid) :: holders, [], sequence⟩ :=
    .lock ⟨log, holders, [], sequence⟩ e.commitXid e.key hrun hfree hok
  have hnext : Writers.Step ok ⟨log, (e.key, e.commitXid) :: holders, [], sequence⟩
      ⟨log, (e.key, e.commitXid) :: holders, [(e.commitXid, e.key, sequence + 1)], sequence + 1⟩ :=
    .nextval ⟨log, (e.key, e.commitXid) :: holders, [], sequence⟩ e.commitXid e.key hrun List.mem_cons_self (by simp)
  have hwrite : Writers.Step ok
      ⟨log, (e.key, e.commitXid) :: holders, [(e.commitXid, e.key, sequence + 1)], sequence + 1⟩
      ⟨log.insert e hrun hid, (e.key, e.commitXid) :: holders, [], sequence + 1⟩ := by
    have hstep := @Writers.Step.write _ ok
      ⟨log, (e.key, e.commitXid) :: holders, [(e.commitXid, e.key, sequence + 1)], sequence + 1⟩ e hrun hid
      (by rw [hversion]; exact List.mem_singleton_self _)
    simpa using hstep
  exact .tail (.tail (.tail (.single hlock) hnext) hwrite) (.finish _ e.commitXid .committed hrun (by decide))

theorem Watched.writes {ok : Writers δ → ℕ → KeyText → Prop} {w : Request δ} {limit : ℕ} {a b : Writers δ}
    (h : Relation.ReflTransGen (Writers.Step ok) a b) (s : Stream δ) :
    Relation.ReflTransGen (Watched.Step ok w limit) ⟨a, s⟩ ⟨b, s⟩ := by
  induction h with
  | refl => exact .refl
  | tail _ hstep ih => exact ih.tail (.write s hstep)

theorem Watched.sends_two {ok : Writers δ → ℕ → KeyText → Prop} {w : Request δ} {limit : ℕ} {a : Writers δ}
    {cursor : ℕ ×ₗ ℕ} {r s : Entry δ} (hrows : (w.pending a.log a.log.horizon cursor).take limit = [r, s]) :
    ∃ stream, Relation.ReflTransGen (Watched.Step ok w limit) ⟨a, ⟨cursor, 0, [], .idle⟩⟩ ⟨a, stream⟩ ∧
      stream.result = (w.event r).toList ++ (w.event s).toList := by
  have hhorizon : Reads w limit a.log ⟨cursor, 0, [], .idle⟩ ⟨cursor, 0, [], .polled a.log.horizon⟩ :=
    .horizon ⟨cursor, 0, [], .idle⟩ rfl
  have hfetched : Reads w limit a.log ⟨cursor, 0, [], .polled a.log.horizon⟩
      ⟨cursor, 0, [], .sending a.log.horizon 0 [r, s]⟩ := by
    rw [← hrows]
    exact .rows ⟨cursor, 0, [], .polled a.log.horizon⟩ rfl
  refine ⟨_, .tail (.tail (.tail (.single (.read _ hhorizon)) (.read _ hfetched)) (.read _ (.send _ rfl)))
    (.read _ (.send _ rfl)), rfl⟩

def firstChange : Entry ℕ := ⟨['/', 'a'], 1, .modified, some 7, 0, 1, 0⟩

def secondChange : Entry ℕ := ⟨['/', 'a'], 2, .modified, some 8, 1, 2, 0⟩

def changedOnce : Writers ℕ :=
  ⟨(Log.empty.begin.insert firstChange rfl (by decide)).finish 0 .committed, [(['/', 'a'], 0)], [], 1⟩

def changedTwice : Writers ℕ :=
  ⟨(changedOnce.log.begin.insert secondChange rfl (by decide)).finish 1 .committed,
    [(['/', 'a'], 1), (['/', 'a'], 0)], [], 2⟩

theorem changedTwice_reached : Relation.ReflTransGen (Writers.Step Writers.Later) Writers.initial changedTwice := by
  have hfirst : Relation.ReflTransGen (Writers.Step Writers.Later) ⟨Log.empty.begin, [], [], 0⟩ changedOnce :=
    Writers.changes_object ⟨Log.empty.begin, [], [], 0⟩ firstChange rfl (by decide) (fun _ hy => (nomatch hy)) (fun _ he => (nomatch he)) rfl rfl
  have hfree : ∀ y, (['/', 'a'], y) ∈ changedOnce.holders → changedOnce.log.begin.Running y → y = 1 := by
    intro y hy hrun
    obtain rfl : y = 0 := (Prod.mk.inj (List.mem_singleton.mp hy)).2
    cases hrun
  -- the first change has committed, under a smaller number
  have hlater : Writers.Later ⟨changedOnce.log.begin, changedOnce.holders, [], 1⟩ 1 ['/', 'a'] := by
    unfold Writers.Later
    decide
  have hsecond : Relation.ReflTransGen (Writers.Step Writers.Later) ⟨changedOnce.log.begin, changedOnce.holders, [], 1⟩
      changedTwice :=
    Writers.changes_object ⟨changedOnce.log.begin, changedOnce.holders, [], 1⟩ secondChange rfl (by decide) hfree hlater rfl rfl
  exact (Relation.ReflTransGen.head (.begin Writers.initial) hfirst).trans (.head (.begin changedOnce) hsecond)

theorem objectEvents_ordered_changedTwice : ∃ a : Watched ℕ,
    a.stream.result = [⟨.modified, ['/', 'a'], 7, 1⟩, ⟨.modified, ['/', 'a'], 8, 2⟩] ∧
      ∃ rows, Emitted everything (toLex (0, 0)) ⟨a.writers.log, a.stream⟩ rows ∧
        rows.Pairwise fun r s => r.key = s.key → r.resourceVersion < s.resourceVersion := by
  obtain ⟨stream, hpolled, hresult⟩ := @Watched.sends_two ℕ Writers.Later everything 500 changedTwice (toLex (0, 0))
    firstChange secondChange (by decide)
  exact ⟨⟨changedTwice, stream⟩, hresult, objectEvents_ordered everything 500 (toLex (0, 0)) ⟨changedTwice, stream⟩
    ((Watched.writes changedTwice_reached _).trans hpolled)⟩

def allocated : Entry ℕ := ⟨['/', 'a'], 1, .modified, some 7, 1, 1, 0⟩

def released : Entry ℕ := ⟨['/', 'a'], 2, .modified, some 8, 0, 2, 0⟩

def bothBegun : Writers ℕ := ⟨Log.empty.begin.begin, [], [], 0⟩

def firstDone : Writers ℕ :=
  ⟨(bothBegun.log.insert allocated rfl (by decide)).finish 1 .committed, [(['/', 'a'], 1)], [], 1⟩

def bothDone : Writers ℕ :=
  ⟨(firstDone.log.insert released rfl (by decide)).finish 0 .committed, [(['/', 'a'], 0), (['/', 'a'], 1)], [], 2⟩

theorem bothDone_reached : Relation.ReflTransGen (Writers.Step fun _ _ _ => True) Writers.initial bothDone := by
  have hbegun : Relation.ReflTransGen (Writers.Step fun _ _ _ => True) Writers.initial bothBegun :=
    .tail (.single (.begin _)) (.begin _)
  have hfirst : Relation.ReflTransGen (Writers.Step fun _ _ _ => True) bothBegun firstDone :=
    Writers.changes_object bothBegun allocated rfl (by decide) (fun _ hy => (nomatch hy)) trivial rfl rfl
  have hfree : ∀ y, (['/', 'a'], y) ∈ firstDone.holders → firstDone.log.Running y → y = 0 := by
    intro y hy hrun
    obtain rfl : y = 1 := (Prod.mk.inj (List.mem_singleton.mp hy)).2
    cases hrun
  exact (hbegun.trans hfirst).trans (Writers.changes_object firstDone released rfl (by decide) hfree trivial rfl rfl)

/-- A release takes its number before it waits for the pool; an allocation that takes a larger number gets the lock
first, and the watch sends the release's version of the pool before the allocation's. -/
theorem objectEvents_disordered : ∃ a : Watched ℕ,
    Relation.ReflTransGen (Watched.Step (fun _ _ _ => True) everything 500) (.initial (toLex (0, 0))) a ∧
      a.stream.result = [⟨.modified, ['/', 'a'], 8, 2⟩, ⟨.modified, ['/', 'a'], 7, 1⟩] := by
  obtain ⟨stream, hpolled, hresult⟩ := @Watched.sends_two ℕ (fun _ _ _ => True) everything 500 bothDone (toLex (0, 0))
    released allocated (by decide)
  exact ⟨⟨bothDone, stream⟩, (Watched.writes bothDone_reached _).trans hpolled, hresult⟩

end Ipam.Watch
