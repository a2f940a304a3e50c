import Ipam.Watch.Poll

namespace Ipam.Watch

open Changefeed

variable {δ : Type}

structure Stored (δ : Type) where
  key : KeyText
  resourceVersion : ℕ
  data : Option δ
  deriving DecidableEq, Repr

def Entry.stored (e : Entry δ) : Stored δ :=
  ⟨e.key, e.resourceVersion, e.data⟩

def put (objects : List (Stored δ)) (e : Entry δ) : List (Stored δ) :=
  objects.filter (·.key ≠ e.key) ++ if e.eventType = .deleted then [] else [e.stored]

variable (δ) in
structure Store where
  log : Changelog δ
  commits : List ℕ
  commits_iff : ∀ x, x ∈ commits ↔ log.Committed x

namespace Store

def rowsOf (S : Store δ) (x : ℕ) : List (Entry δ) :=
  S.log.rows.filter (·.commitXid = x)

def objects (S : Store δ) : List (Stored δ) :=
  (S.commits.flatMap S.rowsOf).foldl put []

def empty : Store δ where
  log := Log.empty
  commits := []
  commits_iff x := by simp [Log.Committed, Log.empty]

def begin (S : Store δ) : Store δ where
  log := S.log.begin
  commits := S.commits
  commits_iff x := by
    rw [S.commits_iff x]
    by_cases hx : x < S.log.fates.length
    · simp [Log.Committed, Log.begin, List.getElem?_append_left hx]
    · have hx' : S.log.fates.length ≤ x := not_lt.mp hx
      rw [Log.Committed, Log.Committed, List.getElem?_eq_none hx', Log.begin, List.getElem?_append_right hx',
        List.getElem?_singleton]
      split <;> simp

def insert (S : Store δ) (e : Entry δ) (hrun : S.log.Running e.commitXid) (hid : S.log.drawn < e.id) : Store δ where
  log := S.log.insert e hrun hid
  commits := S.commits
  commits_iff := S.commits_iff

def commit (S : Store δ) (x : ℕ) (hrun : S.log.Running x) : Store δ where
  log := S.log.finish x .committed
  commits := S.commits ++ [x]
  commits_iff y := by
    have hx := (List.getElem?_eq_some_iff.mp hrun).1
    rw [List.mem_append, List.mem_singleton, S.commits_iff y, Log.Committed, Log.Committed, Log.finish,
      List.getElem?_set]
    by_cases hxy : x = y
    · subst hxy
      simp [hx]
    · simp [hxy, Ne.symm hxy]

def abort (S : Store δ) (x : ℕ) (hrun : S.log.Running x) : Store δ where
  log := S.log.finish x .aborted
  commits := S.commits
  commits_iff y := by
    rw [S.commits_iff y, Log.Committed, Log.Committed, Log.finish, List.getElem?_set]
    by_cases hxy : x = y
    · subst hxy
      have hx : S.log.fates[x]? = some .running := hrun
      rw [hx]
      split <;> simp
    · simp [hxy]

inductive Step : Store δ → Store δ → Prop
  | begin (S : Store δ) : Step S S.begin
  | insert (S : Store δ) (e : Entry δ) (hrun : S.log.Running e.commitXid) (hid : S.log.drawn < e.id)
      (hfresh : ∀ r ∈ S.log.rows, r.resourceVersion ≠ e.resourceVersion) (hpos : 0 < e.resourceVersion) :
      Step S (S.insert e hrun hid)
  | commit (S : Store δ) (x : ℕ) (hrun : S.log.Running x) : Step S (S.commit x hrun)
  | abort (S : Store δ) (x : ℕ) (hrun : S.log.Running x) : Step S (S.abort x hrun)

theorem Step.log {S S' : Store δ} (h : Step S S') : S.log.Step S'.log := by
  cases h with
  | begin => exact .begin _
  | insert e hrun hid hfresh hpos => exact .insert _ e hrun hid
  | commit x hrun => exact .finish _ x _ hrun (by decide)
  | abort x hrun => exact .finish _ x _ hrun (by decide)

end Store

def maxVersion (versions : List ℕ) : ℕ :=
  versions.foldr max 0

def Store.committedMaxResourceVersion (S : Store δ) : ℕ :=
  max (maxVersion (S.objects.map Stored.resourceVersion))
    (maxVersion ((S.log.visible.filter (·.commitXid < S.log.horizon)).map Entry.resourceVersion))

def Store.currentResourceVersion (S : Store δ) : ℕ :=
  max S.committedMaxResourceVersion 1

theorem le_maxVersion {versions : List ℕ} {v : ℕ} (h : v ∈ versions) : v ≤ maxVersion versions := by
  induction versions with
  | nil => cases h
  | cons u versions ih =>
    rcases List.mem_cons.mp h with rfl | h
    · exact le_max_left _ _
    · exact (ih h).trans (le_max_right _ _)

theorem maxVersion_cases (versions : List ℕ) : maxVersion versions = 0 ∨ maxVersion versions ∈ versions := by
  induction versions with
  | nil => exact .inl rfl
  | cons u versions ih =>
    change max u (maxVersion versions) = 0 ∨ max u (maxVersion versions) ∈ u :: versions
    rcases le_total u (maxVersion versions) with hle | hle
    · rw [max_eq_right hle]
      exact ih.imp_right (List.mem_cons_of_mem _)
    · rw [max_eq_left hle]
      exact .inr List.mem_cons_self

theorem mem_foldl_put {es : List (Entry δ)} {objects : List (Stored δ)} {o : Stored δ} (h : o ∈ es.foldl put objects) :
    o ∈ objects ∨ ∃ e ∈ es, o = e.stored := by
  induction es generalizing objects with
  | nil => exact .inl h
  | cons e es ih =>
    rcases ih h with hput | ⟨r, hr, heq⟩
    · rcases List.mem_append.mp hput with hold | hnew
      · exact .inl (List.mem_of_mem_filter hold)
      · split at hnew
        · cases hnew
        · exact .inr ⟨e, List.mem_cons_self, List.mem_singleton.mp hnew⟩
    · exact .inr ⟨r, List.mem_cons_of_mem _ hr, heq⟩

theorem Store.object_row {S : Store δ} {o : Stored δ} (h : o ∈ S.objects) : ∃ e ∈ S.log.visible, o = e.stored := by
  rcases mem_foldl_put h with hnil | ⟨e, he, heq⟩
  · cases hnil
  · obtain ⟨x, hx, he⟩ := List.mem_flatMap.mp he
    obtain ⟨hrow, hxid⟩ := List.mem_filter.mp he
    have hcommitted := (S.commits_iff x).mp hx
    rw [← of_decide_eq_true hxid] at hcommitted
    exact ⟨e, Log.mem_visible.mpr ⟨hrow, hcommitted⟩, heq⟩

def lastRow (rows : List (Entry δ)) : ℕ ×ₗ ℕ :=
  match (rows.insertionSort fun a b => pos b ≤ pos a).head? with
  | some e => pos e
  | none => toLex (0, 0)

def initialCursor (L : Changelog δ) : ℕ ×ₗ ℕ :=
  lastRow (L.visible.filter (·.commitXid < L.horizon))

/-- The row with the version, else the row with the greatest version not above it, else the beginning. -/
def seedCursorFromRV (L : Changelog δ) (startRV : ℕ) : ℕ ×ₗ ℕ :=
  match ((L.visible.filter (·.resourceVersion = startRV)).insertionSort fun a b => b.id ≤ a.id).head? with
  | some e => pos e
  | none =>
    match ((L.visible.filter (·.resourceVersion ≤ startRV)).insertionSort
        fun a b => toLex (b.resourceVersion, b.id) ≤ toLex (a.resourceVersion, a.id)).head? with
    | some e => pos e
    | none => toLex (0, 0)

def openWatch (L : Changelog δ) (startRV : ℕ) : Stream δ :=
  ⟨if 0 < startRV then seedCursorFromRV L startRV else toLex (0, 0), startRV, [], .idle⟩

def sendInitialEventList (w : Request δ) (S : Store δ) : List (Event δ) :=
  ((S.objects.filter fun o => w.covers o.key).insertionSort fun a b => a.resourceVersion ≤ b.resourceVersion).filterMap
    fun o => w.event ⟨o.key, o.resourceVersion, .added, o.data, 0, 0, 0⟩

theorem lastRow_cases (rows : List (Entry δ)) :
    (rows = [] ∧ lastRow rows = toLex (0, 0)) ∨
      ∃ e ∈ rows, lastRow rows = pos e ∧ ∀ r ∈ rows, pos r ≤ pos e := by
  have hsorted := List.pairwise_insertionSort (fun a b : Entry δ => pos b ≤ pos a) rows
  have hmem : ∀ r, r ∈ rows.insertionSort (fun a b => pos b ≤ pos a) ↔ r ∈ rows :=
    fun r => List.mem_insertionSort _
  unfold lastRow
  cases hsort : rows.insertionSort (fun a b => pos b ≤ pos a) with
  | nil =>
    left
    refine ⟨List.eq_nil_iff_forall_not_mem.mpr fun r hr => ?_, rfl⟩
    rw [← hmem, hsort] at hr
    cases hr
  | cons e rest =>
    right
    rw [hsort] at hsorted hmem
    refine ⟨e, (hmem e).mp List.mem_cons_self, rfl, fun r hr => ?_⟩
    rcases List.mem_cons.mp ((hmem r).mpr hr) with rfl | hr
    · exact le_rfl
    · exact (List.pairwise_cons.mp hsorted).1 r hr

theorem zero_lt_pos {L : Changelog δ} {e : Entry δ} (h : e ∈ L.rows) : toLex (0, 0) < pos e := by
  have hid : 0 < e.id := L.positive e h
  refine Prod.Lex.toLex_lt_toLex.mpr ?_
  rcases Nat.eq_zero_or_pos (xid e) with hx | hx
  · exact .inr ⟨hx.symm, hid⟩
  · exact .inl hx

theorem mem_of_head?_insertionSort {α : Type} {r : α → α → Prop} [DecidableRel r] {l : List α} {a : α}
    (h : (l.insertionSort r).head? = some a) : a ∈ l :=
  (List.mem_insertionSort r).mp (List.mem_of_mem_head? h)

theorem openWatch_cursor (L : Changelog δ) (r : ℕ) :
    (openWatch L r).cursor = toLex (0, 0) ∨
      ∃ e ∈ L.visible, e.resourceVersion ≤ r ∧ (openWatch L r).cursor = pos e := by
  unfold openWatch
  dsimp only
  split
  · unfold seedCursorFromRV
    split
    · rename_i e he
      obtain ⟨hvis, hrv⟩ := List.mem_filter.mp (mem_of_head?_insertionSort he)
      exact .inr ⟨e, hvis, (of_decide_eq_true hrv).le, rfl⟩
    · split
      · rename_i e he
        obtain ⟨hvis, hrv⟩ := List.mem_filter.mp (mem_of_head?_insertionSort he)
        exact .inr ⟨e, hvis, of_decide_eq_true hrv, rfl⟩
      · exact .inl rfl
  · exact .inl rfl

theorem initialCursor_lt_iff {L L' : Changelog δ} (hgrows : L.Grows L') {e : Entry δ} (he : e ∈ L'.visible) :
    initialCursor L < pos e ↔ L.horizon ≤ e.commitXid := by
  have hrow := (Log.mem_visible.mp he).1
  constructor
  · intro hlt
    by_contra hx
    have hx' : e.commitXid < L.horizon := not_le.mp hx
    have hmem : e ∈ L.visible.filter (·.commitXid < L.horizon) :=
      List.mem_filter.mpr ⟨(hgrows.visible_below hx').mp he, decide_eq_true hx'⟩
    rcases lastRow_cases (L.visible.filter (·.commitXid < L.horizon)) with ⟨hnil, _⟩ | ⟨r, _, heq, hall⟩
    · rw [hnil] at hmem
      cases hmem
    · rw [initialCursor, heq] at hlt
      exact absurd hlt (not_lt.mpr (hall e hmem))
  · intro hx
    rcases lastRow_cases (L.visible.filter (·.commitXid < L.horizon)) with ⟨_, heq⟩ | ⟨r, hr, heq, _⟩
    · rw [initialCursor, heq]
      exact zero_lt_pos hrow
    · rw [initialCursor, heq]
      have hxr : r.commitXid < L.horizon := of_decide_eq_true (List.mem_filter.mp hr).2
      exact pos_lt_iff.mpr (.inl (lt_of_lt_of_le hxr hx))

end Ipam.Watch
