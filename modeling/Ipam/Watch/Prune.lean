import Ipam.Watch.Objects

/-!
The cleanup loop next to a watch. The log keeps every row ever written; `gone` holds the numbers of the rows the
cleanup has deleted from the table, so the watch reads the log without them.
-/

namespace Ipam.Watch

open Changefeed

variable {δ : Type}

structure Pruned (δ : Type) where
  log : Changelog δ
  gone : List ℕ
  stream : Stream δ

namespace Pruned

def table (a : Pruned δ) : Changelog δ :=
  a.log.without a.gone

def world (a : Pruned δ) : World δ :=
  ⟨a.log, a.stream⟩

def expired (a : Pruned δ) (cutoff : ℕ) : List (Entry δ) :=
  a.table.visible.filter (·.createdAt < cutoff)

inductive Step (ok : Pruned δ → ℕ → Prop) (w : Request δ) (limit : ℕ) : Pruned δ → Pruned δ → Prop
  | write (a : Pruned δ) {L : Changelog δ} (h : a.log.Step L) : Step ok w limit a { a with log := L }
  | read (a : Pruned δ) {s : Stream δ} (h : Reads w limit a.table a.stream s) : Step ok w limit a { a with stream := s }
  | cleanup (a : Pruned δ) (cutoff : ℕ) (hok : ok a cutoff) :
      Step ok w limit a { a with gone := a.gone ++ (a.expired cutoff).map Entry.id }

abbrev Reaches (ok : Pruned δ → ℕ → Prop) (w : Request δ) (limit : ℕ) : Pruned δ → Pruned δ → Prop :=
  Relation.ReflTransGen (Step ok w limit)

def Poll (ok : Pruned δ → ℕ → Prop) (w : Request δ) (limit : ℕ) (a b : Pruned δ) : Prop :=
  a.stream.phase = .idle ∧
    Relation.ReflTransGen (fun x y => Step ok w limit x y ∧ y.stream.phase ≠ .idle)
      { a with stream := { a.stream with phase := .polled a.log.horizon } } b ∧
    ∃ h n, b.stream.phase = .sending h n []

inductive Polls (ok : Pruned δ → ℕ → Prop) (w : Request δ) (limit : ℕ) : ℕ → Pruned δ → Pruned δ → Prop
  | none {a b : Pruned δ} (h : Reaches ok w limit a b) : Polls ok w limit 0 a b
  | poll {a b c d : Pruned δ} {k : ℕ} (h : Reaches ok w limit a b) (hpoll : Poll ok w limit b c)
      (hrest : Polls ok w limit k c d) : Polls ok w limit (k + 1) a d

/-- A poll would find nothing, and no transaction is open that is older than a row the cleanup takes. -/
def CaughtUp (w : Request δ) (a : Pruned δ) (cutoff : ℕ) : Prop :=
  w.pending a.table a.log.horizon a.stream.cursor = [] ∧ ∀ e ∈ a.expired cutoff, e.commitXid < a.log.horizon

theorem CaughtUp.passed {w : Request δ} {a : Pruned δ} {cutoff : ℕ} (h : CaughtUp w a cutoff) {e : Entry δ}
    (he : e ∈ a.expired cutoff) (hcovers : w.covers e.key) : pos e ≤ a.stream.cursor := by
  by_contra hle
  have hpend : e ∈ w.pending a.table a.log.horizon a.stream.cursor :=
    mem_pending.mpr ⟨List.mem_of_mem_filter he, h.2 e he, not_le.mp hle, hcovers⟩
  rw [h.1] at hpend
  cases hpend

structure Behind (w : Request δ) (a : Pruned δ) : Prop where
  recorded : ∀ i ∈ a.gone, ∃ e ∈ a.log.visible, e.id = i
  passed : ∀ e ∈ a.log.visible, e.id ∈ a.gone → w.covers e.key → pos e ≤ a.stream.cursor

theorem eq_of_id {L : Changelog δ} {e e' : Entry δ} (he : e ∈ L.visible) (he' : e' ∈ L.visible) (hid : e.id = e'.id) :
    e = e' := by
  by_contra hne
  have hsymm : Std.Symm fun a b : Entry δ => a.id ≠ b.id := ⟨fun _ _ => Ne.symm⟩
  have hids : L.rows.Pairwise fun a b => a.id ≠ b.id := L.numbered.imp fun hlt => ne_of_lt hlt
  exact hids.forall (Log.mem_visible.mp he).1 (Log.mem_visible.mp he').1 hne hid

theorem pending_table {w : Request δ} {a : Pruned δ} (h : Behind w a) (n : ℕ) :
    w.pending a.table n a.stream.cursor = w.pending a.log n a.stream.cursor := by
  unfold Request.pending
  rw [table, Log.without_visible, List.filter_filter]
  congr 1
  refine List.filter_congr fun e he => ?_
  rw [Bool.eq_iff_iff, Bool.and_eq_true, decide_eq_true_eq, decide_eq_true_eq]
  refine ⟨And.left, fun hpend => ⟨hpend, fun hgone => ?_⟩⟩
  exact absurd (h.passed e he hgone hpend.2.2) (not_le.mpr hpend.2.1)

theorem reads_log {w : Request δ} {limit : ℕ} {a : Pruned δ} (h : Behind w a) {s : Stream δ}
    (hread : Reads w limit a.table a.stream s) : Reads w limit a.log a.stream s := by
  generalize ht : a.stream = t at hread
  cases hread with
  | horizon hidle => exact .horizon t hidle
  | rows hphase =>
    rw [← ht, pending_table h]
    rw [← ht] at hphase
    exact .rows a.stream hphase
  | send hphase => exact .send t hphase
  | done hphase => exact .done t hphase
  | fail => exact .fail t

theorem Behind.write {w : Request δ} {a : Pruned δ} (h : Behind w a) {L : Changelog δ} (hstep : a.log.Step L) :
    Behind w { a with log := L } := by
  refine ⟨fun i hi => ?_, fun e he hgone hcovers => ?_⟩
  · obtain ⟨e, he, hid⟩ := h.recorded i hi
    exact ⟨e, hstep.visible he, hid⟩
  · obtain ⟨e', he', hid⟩ := h.recorded e.id hgone
    have heq := eq_of_id he (hstep.visible he') hid.symm
    exact h.passed e (heq ▸ he') hgone hcovers

theorem Behind.read {w : Request δ} {a : Pruned δ} (h : Behind w a) {s : Stream δ} (hle : a.stream.cursor ≤ s.cursor) :
    Behind w { a with stream := s } :=
  ⟨h.recorded, fun e he hgone hcovers => (h.passed e he hgone hcovers).trans hle⟩

theorem Behind.cleanup {w : Request δ} {a : Pruned δ} (h : Behind w a) {cutoff : ℕ} (hok : CaughtUp w a cutoff) :
    Behind w { a with gone := a.gone ++ (a.expired cutoff).map Entry.id } := by
  have hvis : ∀ e ∈ a.expired cutoff, e ∈ a.log.visible := by
    intro e he
    have htable := List.mem_of_mem_filter he
    rw [table, Log.without_visible] at htable
    exact List.mem_of_mem_filter htable
  refine ⟨fun i hi => ?_, fun e he hgone hcovers => ?_⟩
  · rcases List.mem_append.mp hi with hi | hi
    · exact h.recorded i hi
    · obtain ⟨e, he, hid⟩ := List.mem_map.mp hi
      exact ⟨e, hvis e he, hid⟩
  · rcases List.mem_append.mp hgone with hgone | hgone
    · exact h.passed e he hgone hcovers
    · obtain ⟨e', he', hid⟩ := List.mem_map.mp hgone
      have heq := eq_of_id he (hvis e' he') hid.symm
      rw [heq] at hcovers ⊢
      exact hok.passed he' hcovers

theorem Behind.step {w : Request δ} {limit : ℕ} {start : ℕ ×ₗ ℕ} {a b : Pruned δ} (h : Behind w a)
    (hlive : Live w limit start a.world) (hstep : Step (CaughtUp w) w limit a b) :
    Behind w b ∧ Relation.ReflGen (Watch.Step w limit) a.world b.world := by
  cases hstep with
  | write hlog => exact ⟨h.write hlog, .single (.write a.stream hlog)⟩
  | read hread =>
    have hstep : Watch.Step w limit a.world ⟨a.log, _⟩ := .read a.log (reads_log h hread)
    exact ⟨h.read (hlive.cursor_le hstep), .single hstep⟩
  | cleanup cutoff hok => exact ⟨h.cleanup hok, .refl⟩

theorem Behind.reaches {w : Request δ} {limit : ℕ} {start : ℕ ×ₗ ℕ} {a b : Pruned δ} (h : Behind w a)
    (hlive : Live w limit start a.world) (hreach : Reaches (CaughtUp w) w limit a b) :
    Behind w b ∧ Watch.Reaches w limit a.world b.world := by
  induction hreach with
  | refl => exact ⟨h, .refl⟩
  | tail _ hstep ih =>
    obtain ⟨hb, hstep⟩ := ih.1.step (hlive.reaches ih.2) hstep
    exact ⟨hb, ih.2.trans hstep.to_reflTransGen⟩

theorem Behind.poll {w : Request δ} {limit : ℕ} {start : ℕ ×ₗ ℕ} {a b : Pruned δ} (h : Behind w a)
    (hlive : Live w limit start a.world) (hpoll : Poll (CaughtUp w) w limit a b) :
    Behind w b ∧ Watch.Poll w limit a.world b.world := by
  obtain ⟨hidle, hbusy, hend⟩ := hpoll
  have hfirst : Watch.Step w limit a.world ⟨a.log, { a.stream with phase := .polled a.log.horizon }⟩ :=
    .read a.log (.horizon a.stream hidle)
  have hlive' := hlive.step hfirst
  have hrun : Behind w b ∧ Relation.ReflTransGen (Busy w limit)
      ⟨a.log, { a.stream with phase := .polled a.log.horizon }⟩ b.world := by
    clear hend
    induction hbusy with
    | refl => exact ⟨h.read le_rfl, .refl⟩
    | tail _ hstep ih =>
      have hreach := Relation.ReflTransGen.mono (fun _ _ hstep => hstep.1) _ _ ih.2
      obtain ⟨hb, hworld⟩ := ih.1.step (hlive'.reaches hreach) hstep.1
      refine ⟨hb, ?_⟩
      rcases (Relation.reflGen_iff _ _ _).mp hworld with heq | hworld
      · rw [heq]
        exact ih.2
      · exact ih.2.tail ⟨hworld, hstep.2⟩
  exact ⟨hrun.1, hidle, hrun.2, hend⟩

theorem Behind.polls {w : Request δ} {limit k : ℕ} {start : ℕ ×ₗ ℕ} {a b : Pruned δ} (h : Behind w a)
    (hlive : Live w limit start a.world) (hpolls : Polls (CaughtUp w) w limit k a b) :
    Watch.Polls w limit k a.world b.world := by
  induction hpolls with
  | none hreach => exact .none (h.reaches hlive hreach).2
  | poll hreach hpoll _ ih =>
    obtain ⟨hb, hreach⟩ := h.reaches hlive hreach
    obtain ⟨hc, hpoll⟩ := hb.poll (hlive.reaches hreach) hpoll
    exact .poll hreach hpoll (ih hc ((hlive.reaches hreach).reaches hpoll.reaches))

theorem exists_sent (ok : Pruned δ → ℕ → Prop) (w : Request δ) (limit h : ℕ) (rest : List (Entry δ)) :
    ∀ (n : ℕ) (a : Pruned δ), a.stream.phase = .sending h n rest →
      ∃ b : Pruned δ, Relation.ReflTransGen (fun x y => Step ok w limit x y ∧ y.stream.phase ≠ .idle) a b ∧
        ∃ m, b.stream.phase = .sending h m [] := by
  induction rest with
  | nil => exact fun n a hphase => ⟨a, .refl, n, hphase⟩
  | cons e rest ih =>
    intro n a hphase
    obtain ⟨b, hbusy, hend⟩ := ih (n + 1) { a with
      stream := { a.stream.advanceCursor e with
        result := a.stream.result ++ (w.event e).toList, phase := .sending h (n + 1) rest } } rfl
    exact ⟨b, .head ⟨.read a (.send a.stream hphase), fun hidle => (nomatch hidle)⟩ hbusy, hend⟩

theorem exists_polls (ok : Pruned δ → ℕ → Prop) (w : Request δ) (limit k : ℕ) (a : Pruned δ) :
    ∃ b, Polls ok w limit k a b := by
  induction k generalizing a with
  | zero => exact ⟨a, .none .refl⟩
  | succ k ih =>
    let polled : Stream δ := { a.stream with phase := .polled a.log.horizon }
    let fetched : Stream δ := { a.stream with
      phase := .sending a.log.horizon 0 ((w.pending a.table a.log.horizon a.stream.cursor).take limit) }
    obtain ⟨b, hbusy, m, hend⟩ := exists_sent ok w limit a.log.horizon
      ((w.pending a.table a.log.horizon a.stream.cursor).take limit) 0 { a with stream := fetched } rfl
    obtain ⟨c, hc⟩ := ih b
    have hfetch : Reads w limit a.table polled fetched := .rows polled rfl
    refine ⟨c, .poll (.single (.read a (.fail a.stream))) ⟨rfl, ?_, a.log.horizon, m, hend⟩ hc⟩
    exact .head ⟨.read { a with stream := polled } hfetch, fun hidle => (nomatch hidle)⟩ hbusy

theorem openWatch_complete (w : Request δ) (limit r : ℕ) (before : List (Entry δ))
    (hbefore : ∀ e ∈ before, e.resourceVersion ≤ r) (L : Changelog δ) (a : Pruned δ)
    (hreach : Reaches (CaughtUp w) w limit ⟨L, [], openWatch L r⟩ a)
    (horder : ∀ e ∈ L.visible, ∀ e' ∈ a.log.visible, e.resourceVersion ≤ r → r < e'.resourceVersion → pos e < pos e')
    (e : Entry δ) (he : e ∈ before ∨ e ∈ a.log.visible) (hcovers : w.covers e.key) (hafter : r < e.resourceVersion) :
    (e.id ∈ a.gone → ∃ sent, Emitted w (openWatch L r).cursor a.world sent ∧ e ∈ sent) ∧
    ((∀ x < e.commitXid, ¬ a.log.Running x) → ∀ k, w.backlog a.world e ≤ k * limit →
      (∃ b, Polls (CaughtUp w) w limit k a b) ∧
      ∀ b, Polls (CaughtUp w) w limit k a b →
        ∃ sent, Emitted w (openWatch L r).cursor b.world sent ∧ e ∈ sent) := by
  have hvis : e ∈ a.log.visible := by
    rcases he with he | he
    · exact absurd (hbefore e he) (not_le.mpr hafter)
    · exact he
  have hstart : Live w limit (openWatch L r).cursor (⟨L, [], openWatch L r⟩ : Pruned δ).world :=
    start_live w limit L (openWatch L r).cursor r
  have hnone : Behind w (⟨L, [], openWatch L r⟩ : Pruned δ) := ⟨fun _ hi => (nomatch hi), fun _ _ hgone => (nomatch hgone)⟩
  obtain ⟨hbehind, hworld⟩ := hnone.reaches hstart hreach
  have hlive := hstart.reaches hworld
  have habove : (openWatch L r).cursor < pos e := by
    rcases openWatch_cursor L r with heq | ⟨e₀, he₀, hrv, heq⟩
    · rw [heq]
      exact zero_lt_pos (Log.mem_visible.mp hvis).1
    · rw [heq]
      exact horder e₀ he₀ e hvis hrv hafter
  refine ⟨fun hgone => ?_, fun hfinished k hk => ⟨exists_polls _ w limit k a, fun b hpolls => ?_⟩⟩
  · obtain ⟨sent, hsent⟩ := hlive.emitted
    exact ⟨sent, hsent, (hsent.mem e).mpr ⟨hvis, hcovers, habove, hbehind.passed e hvis hgone hcovers⟩⟩
  · have hpolls' := hbehind.polls hlive hpolls
    have hx : e.commitXid < a.log.horizon := Log.lt_horizon_of_finished (Log.mem_visible.mp hvis).2 hfinished
    obtain ⟨sent, hsent⟩ := (hlive.reaches hpolls'.reaches).emitted
    have hvisb := (Reaches.grows hpolls'.reaches).visible hvis
    exact ⟨sent, hsent, (hsent.mem e).mpr ⟨hvisb, hcovers, habove, hlive.polls hvis hcovers hx hk hpolls'⟩⟩

def dropped : Entry ℕ := ⟨['/', 'a'], 1, .added, some 6, 0, 1, 0⟩

def seen : Entry ℕ := ⟨['/', 'a'], 2, .modified, some 7, 1, 2, 0⟩

def fresh : Entry ℕ := ⟨['/', 'a'], 3, .modified, some 8, 2, 3, 0⟩

-- the row of the first transaction is no longer in the table when version 2 is asked for
def opened : Changelog ℕ :=
  ((Log.empty.begin.finish 0 .committed).begin.insert seen rfl (by decide)).finish 1 .committed

def extended : Changelog ℕ :=
  (opened.begin.insert fresh rfl (by decide)).finish 2 .committed

def swept : Pruned ℕ :=
  ⟨extended, [2, 3], ⟨toLex (2, 3), 3, [⟨.modified, ['/', 'a'], 8, 3⟩], .idle⟩⟩

theorem swept_reached :
    Reaches (CaughtUp everything) everything 500 ⟨opened, [], openWatch opened 2⟩ swept := by
  have hwrites : Reaches (CaughtUp everything) everything 500 ⟨opened, [], openWatch opened 2⟩
      ⟨extended, [], openWatch opened 2⟩ := by
    have hrun : opened.begin.Running 2 := rfl
    refine .head (.write _ (.begin _)) (.head (.write _ (.insert _ fresh hrun (by decide))) ?_)
    exact .single (.write _ (.finish _ 2 .committed rfl (by decide)))
  have hcursor : openWatch opened 2 = ⟨toLex (1, 2), 2, [], .idle⟩ := by
    have hseed : seedCursorFromRV opened 2 = toLex (1, 2) := by decide
    rw [openWatch, if_pos (by decide), hseed]
  have hpending : (everything.pending (extended.without []) 3 (toLex (1, 2))).take 500 = [fresh] := by decide
  let caught : Pruned ℕ := ⟨extended, [], ⟨toLex (2, 3), 3, [⟨.modified, ['/', 'a'], 8, 3⟩], .idle⟩⟩
  have hpoll : Reaches (CaughtUp everything) everything 500 ⟨extended, [], openWatch opened 2⟩ caught := by
    rw [hcursor]
    have hrows : Reads everything 500 (extended.without []) ⟨toLex (1, 2), 2, [], .polled 3⟩
        ⟨toLex (1, 2), 2, [], .sending 3 0 [fresh]⟩ := by
      rw [← hpending]
      exact .rows _ rfl
    refine .head (.read _ (.horizon _ rfl)) (.head (.read _ hrows) (.head (.read _ (.send _ rfl)) ?_))
    exact .single (.read _ (.done _ rfl))
  -- nothing is left to send, and both rows of the table have expired
  have hcaught : CaughtUp everything caught 1 := by
    unfold CaughtUp
    decide
  exact (hwrites.trans hpoll).tail (.cleanup caught 1 hcaught)

theorem openWatch_complete_swept :
    fresh.id ∈ swept.gone ∧ ∃ sent, Emitted everything (openWatch opened 2).cursor swept.world sent ∧ fresh ∈ sent := by
  have h := openWatch_complete everything 500 2 [dropped] (by decide) opened swept swept_reached (by decide) fresh
    (.inr (by decide)) (by decide) (by decide)
  exact ⟨by decide, h.1 (by decide)⟩

-- the first transaction is still open when the second has committed
theorem heldBack_running : (Log.empty.begin.begin : Changelog ℕ).Running (Stamped.xid edgeAdded) := rfl

theorem heldBack_drawn : (Log.empty.begin.begin : Changelog ℕ).drawn < Stamped.id edgeAdded := by decide

def heldBack : Changelog ℕ :=
  (Log.empty.begin.begin.insert edgeAdded heldBack_running heldBack_drawn).finish 1 .committed

def prunedRow : Pruned ℕ :=
  ⟨heldBack.finish 0 .committed, [1], ⟨toLex (0, 0), 1, [], .sending 2 0 []⟩⟩

theorem prunedRow_reached :
    Reaches (fun _ _ => True) everything 500 ⟨heldBack, [], openWatch heldBack 1⟩ prunedRow := by
  refine .head (.cleanup _ 1 trivial) (.head (.write _ (.finish _ 0 .committed rfl (by decide))) ?_)
  exact .head (.read _ (.horizon _ rfl)) (.single (.read _ (.rows _ rfl)))

/-- A row above the version asked for is deleted while an open transaction holds the horizon back; the watch goes on
and a poll after the transaction's end finds nothing. -/
theorem openWatch_loses_pruned :
    Reaches (fun _ _ => True) everything 500 ⟨heldBack, [], openWatch heldBack 1⟩ prunedRow ∧
      edgeAdded ∈ prunedRow.log.visible ∧ everything.covers edgeAdded.key ∧ 1 < edgeAdded.resourceVersion ∧
      (∀ x < 2, ¬ prunedRow.log.Running x) ∧ edgeAdded.id ∈ prunedRow.gone ∧
      prunedRow.stream.phase = .sending 2 0 [] ∧ prunedRow.stream.result = [] := by
  refine ⟨prunedRow_reached, ?_⟩
  decide

end Pruned

end Ipam.Watch
