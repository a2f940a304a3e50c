import Ipam.Watch.Changelog

namespace Ipam.Watch

open Changefeed

variable {δ : Type}

structure Fetched (w : Request δ) (limit : ℕ) (L : Changelog δ) (cursor : ℕ ×ₗ ℕ) (h n : ℕ)
    (rest : List (Entry δ)) : Prop where
  below : h ≤ L.horizon
  ascending : rest.Pairwise fun a b => pos a < pos b
  sound : ∀ e ∈ rest, e ∈ w.pending L h cursor
  complete : ∀ e ∈ w.pending L h cursor, e ∈ rest ∨ limit ≤ n + rest.length ∧ ∀ r ∈ rest, pos r < pos e

theorem pending_ascending (w : Request δ) (L : Changelog δ) (h : ℕ) (c : ℕ ×ₗ ℕ) :
    (w.pending L h c).Pairwise fun a b => pos a < pos b := by
  have hsorted := List.pairwise_insertionSort (fun a b : Entry δ => pos a ≤ pos b)
    (L.visible.filter fun e => e.commitXid < h ∧ c < pos e ∧ w.covers e.key)
  have hids : (L.visible.filter fun e => e.commitXid < h ∧ c < pos e ∧ w.covers e.key).Pairwise
      fun a b => pos a ≠ pos b := by
    refine ((L.numbered.filter _).filter _).imp ?_
    intro a b hlt heq
    exact hlt.ne (Prod.mk.inj (toLex.injective heq)).2
  have hne := hids.perm (List.perm_insertionSort (fun a b : Entry δ => pos a ≤ pos b) _).symm (fun h => h.symm)
  exact (hsorted.and hne).imp fun ⟨hle, hne⟩ => lt_of_le_of_ne hle hne

theorem fetched_take {w : Request δ} {limit : ℕ} {L : Changelog δ} {cursor : ℕ ×ₗ ℕ} {h : ℕ}
    (hh : h ≤ L.horizon) : Fetched w limit L cursor h 0 ((w.pending L h cursor).take limit) := by
  have hasc := pending_ascending w L h cursor
  refine ⟨hh, hasc.sublist (List.take_sublist _ _), fun e he => List.mem_of_mem_take he, ?_⟩
  intro e he
  rw [← List.take_append_drop limit (w.pending L h cursor)] at hasc he
  rcases List.mem_append.mp he with htake | hdrop
  · exact .inl htake
  · refine .inr ⟨?_, fun r hr => (List.pairwise_append.mp hasc).2.2 r hr e hdrop⟩
    have hlen : limit < (w.pending L h cursor).length := by
      by_contra hle
      rw [List.drop_eq_nil_of_le (not_lt.mp hle)] at hdrop
      cases hdrop
    rw [List.length_take]
    omega

theorem Fetched.step {w : Request δ} {limit : ℕ} {L L' : Changelog δ} {cursor : ℕ ×ₗ ℕ} {h n : ℕ}
    {rest : List (Entry δ)} (hf : Fetched w limit L cursor h n rest) (hstep : L.Step L') :
    Fetched w limit L' cursor h n rest := by
  have hpending : ∀ e, e ∈ w.pending L' h cursor ↔ e ∈ w.pending L h cursor := by
    intro e
    rw [mem_pending, mem_pending]
    refine and_congr_left fun ⟨hx, _⟩ => hstep.visible_below (lt_of_lt_of_le hx hf.below)
  refine ⟨hf.below.trans hstep.horizon_le, hf.ascending, ?_, ?_⟩
  · intro e he
    exact (hpending e).mpr (hf.sound e he)
  · intro e he
    exact hf.complete e ((hpending e).mp he)

theorem Fetched.tail {w : Request δ} {limit : ℕ} {L : Changelog δ} {cursor : ℕ ×ₗ ℕ} {h n : ℕ} {e : Entry δ}
    {rest : List (Entry δ)} (hf : Fetched w limit L cursor h n (e :: rest)) :
    Fetched w limit L (pos e) h (n + 1) rest := by
  obtain ⟨hfirst, hasc⟩ := List.pairwise_cons.mp hf.ascending
  refine ⟨hf.below, hasc, ?_, ?_⟩
  · intro r hr
    obtain ⟨hvis, hx, _, hcovers⟩ := mem_pending.mp (hf.sound r (List.mem_cons_of_mem _ hr))
    exact mem_pending.mpr ⟨hvis, hx, hfirst r hr, hcovers⟩
  · intro r hr
    obtain ⟨hvis, hx, hafter, hcovers⟩ := mem_pending.mp hr
    have hcursor := (mem_pending.mp (hf.sound e List.mem_cons_self)).2.2.1
    have hold := hf.complete r (mem_pending.mpr ⟨hvis, hx, hcursor.trans hafter, hcovers⟩)
    rw [List.mem_cons, List.length_cons] at hold
    rcases hold with (rfl | hmem) | ⟨hfull, hall⟩
    · exact absurd hafter (lt_irrefl _)
    · exact .inl hmem
    · exact .inr ⟨by omega, fun s hs => hall s (List.mem_cons_of_mem _ hs)⟩

theorem Fetched.first {w : Request δ} {limit : ℕ} {L : Changelog δ} {cursor : ℕ ×ₗ ℕ} {h n : ℕ} {e r : Entry δ}
    {rest : List (Entry δ)} (hf : Fetched w limit L cursor h n (e :: rest)) (hr : r ∈ L.visible)
    (hcovers : w.covers r.key) (hafter : cursor < pos r) (hle : pos r ≤ pos e) : r = e := by
  have hx := (mem_pending.mp (hf.sound e List.mem_cons_self)).2.1
  have hxr : r.commitXid < h := lt_of_le_of_lt (xid_le_of_pos_le hle) hx
  rcases hf.complete r (mem_pending.mpr ⟨hr, hxr, hafter, hcovers⟩) with hmem | ⟨_, hall⟩
  · rcases List.mem_cons.mp hmem with heq | hmem
    · exact heq
    · exact absurd hle (not_le.mpr ((List.pairwise_cons.mp hf.ascending).1 r hmem))
  · exact absurd hle (not_le.mpr (hall e List.mem_cons_self))

structure Emitted (w : Request δ) (start : ℕ ×ₗ ℕ) (a : World δ) (rows : List (Entry δ)) : Prop where
  ascending : rows.Pairwise fun r s => pos r < pos s
  mem : ∀ e, e ∈ rows ↔ e ∈ a.log.visible ∧ w.covers e.key ∧ start < pos e ∧ pos e ≤ a.stream.cursor
  result : a.stream.result = rows.filterMap w.event

structure Live (w : Request δ) (limit : ℕ) (start : ℕ ×ₗ ℕ) (a : World δ) : Prop where
  emitted : ∃ rows, Emitted w start a rows
  start_le : start ≤ a.stream.cursor
  settled : a.stream.cursor = start ∨ (ofLex a.stream.cursor).1 < a.log.horizon
  polled : ∀ h, a.stream.phase = .polled h → h ≤ a.log.horizon
  sending : ∀ h n rest, a.stream.phase = .sending h n rest → Fetched w limit a.log a.stream.cursor h n rest

theorem start_live (w : Request δ) (limit : ℕ) (L : Changelog δ) (cursor : ℕ ×ₗ ℕ) (rv : ℕ) :
    Live w limit cursor (World.start L cursor rv) := by
  refine ⟨⟨[], List.Pairwise.nil, ?_, rfl⟩, le_rfl, .inl rfl, ?_, ?_⟩
  · intro e
    refine ⟨fun h => absurd h List.not_mem_nil, ?_⟩
    rintro ⟨_, _, hlt, hle⟩
    exact absurd hlt (not_lt.mpr hle)
  · intro h hphase
    cases hphase
  · intro h n rest hphase
    cases hphase

theorem Live.visible_iff {w : Request δ} {limit : ℕ} {start : ℕ ×ₗ ℕ} {a : World δ} (h : Live w limit start a)
    {L : Changelog δ} (hgrows : a.log.Grows L) {e : Entry δ} (hstart : start < pos e)
    (hle : pos e ≤ a.stream.cursor) : e ∈ L.visible ↔ e ∈ a.log.visible := by
  refine hgrows.visible_below ?_
  rcases h.settled with heq | hlt
  · rw [heq] at hle
    exact absurd hstart (not_lt.mpr hle)
  · exact lt_of_le_of_lt (xid_le_of_pos_le hle) hlt

theorem Live.write {w : Request δ} {limit : ℕ} {start : ℕ ×ₗ ℕ} {L L' : Changelog δ} {s : Stream δ}
    (h : Live w limit start ⟨L, s⟩) (hstep : L.Step L') : Live w limit start ⟨L', s⟩ := by
  obtain ⟨rows, hrows⟩ := h.emitted
  refine ⟨⟨rows, hrows.ascending, ?_, hrows.result⟩, h.start_le, ?_, ?_, ?_⟩
  · intro e
    rw [hrows.mem e]
    refine and_congr_left fun ⟨_, hstart, hle⟩ => ?_
    exact (h.visible_iff (.single hstep) hstart hle).symm
  · exact h.settled.imp_right fun hlt => lt_of_lt_of_le hlt hstep.horizon_le
  · intro n hphase
    exact (h.polled n hphase).trans hstep.horizon_le
  · intro n m rest hphase
    exact (h.sending n m rest hphase).step hstep

theorem Live.phase {w : Request δ} {limit : ℕ} {start : ℕ ×ₗ ℕ} {L : Changelog δ} {s : Stream δ}
    (h : Live w limit start ⟨L, s⟩) {p : Phase δ} (hpolled : ∀ n, p = .polled n → n ≤ L.horizon)
    (hsending : ∀ n m rest, p = .sending n m rest → Fetched w limit L s.cursor n m rest) :
    Live w limit start ⟨L, { s with phase := p }⟩ := by
  obtain ⟨rows, hrows⟩ := h.emitted
  exact ⟨⟨rows, hrows.ascending, hrows.mem, hrows.result⟩, h.start_le, h.settled, hpolled, hsending⟩

theorem Live.send {w : Request δ} {limit : ℕ} {start : ℕ ×ₗ ℕ} {L : Changelog δ} {s : Stream δ} {h n : ℕ}
    {e : Entry δ} {rest : List (Entry δ)} (hl : Live w limit start ⟨L, s⟩)
    (hphase : s.phase = .sending h n (e :: rest)) :
    Live w limit start
      ⟨L, { s.advanceCursor e with result := s.result ++ (w.event e).toList, phase := .sending h (n + 1) rest }⟩ := by
  have hf := hl.sending h n (e :: rest) hphase
  obtain ⟨hvis, hx, hafter, hcovers⟩ := mem_pending.mp (hf.sound e List.mem_cons_self)
  obtain ⟨rows, hrows⟩ := hl.emitted
  have hstart : start < pos e := lt_of_le_of_lt hl.start_le hafter
  refine ⟨⟨rows ++ [e], ?_, ?_, ?_⟩, hstart.le, .inr (lt_of_lt_of_le hx hf.below), ?_, ?_⟩
  · refine List.pairwise_append.mpr ⟨hrows.ascending, List.pairwise_singleton _ _, ?_⟩
    intro r hr t ht
    rw [List.mem_singleton.mp ht]
    exact lt_of_le_of_lt ((hrows.mem r).mp hr).2.2.2 hafter
  · intro r
    rw [List.mem_append, List.mem_singleton, hrows.mem r]
    constructor
    · rintro (⟨hr, hc, hs, hle⟩ | rfl)
      · exact ⟨hr, hc, hs, hle.trans hafter.le⟩
      · exact ⟨hvis, hcovers, hstart, le_rfl⟩
    · rintro ⟨hr, hc, hs, hle⟩
      by_cases hold : pos r ≤ s.cursor
      · exact .inl ⟨hr, hc, hs, hold⟩
      · exact .inr (hf.first hr hc (not_le.mp hold) hle)
  · change s.result ++ (w.event e).toList = (rows ++ [e]).filterMap w.event
    rw [List.filterMap_append, ← hrows.result]
    congr 1
  · intro m hm
    cases hm
  · intro m k tail hm
    cases hm
    exact hf.tail

theorem Live.step {w : Request δ} {limit : ℕ} {start : ℕ ×ₗ ℕ} {a b : World δ} (h : Live w limit start a)
    (hstep : Step w limit a b) : Live w limit start b := by
  cases hstep with
  | write s hlog => exact h.write hlog
  | read L hread =>
    cases hread with
    | horizon hidle =>
      refine h.phase ?_ ?_
      · intro n hn
        cases hn
        exact le_rfl
      · intro n m rest hn
        cases hn
    | rows hphase =>
      refine h.phase ?_ ?_
      · intro n hn
        cases hn
      · intro n m rest hn
        cases hn
        exact fetched_take (h.polled _ hphase)
    | send hphase => exact h.send hphase
    | done hphase => exact h.phase (fun n hn => nomatch hn) (fun n m rest hn => nomatch hn)
    | fail => exact h.phase (fun n hn => nomatch hn) (fun n m rest hn => nomatch hn)

theorem Live.reaches {w : Request δ} {limit : ℕ} {start : ℕ ×ₗ ℕ} {a b : World δ} (h : Live w limit start a)
    (hreach : Reaches w limit a b) : Live w limit start b := by
  induction hreach with
  | refl => exact h
  | tail _ hstep ih => exact ih.step hstep

def Busy (w : Request δ) (limit : ℕ) (a b : World δ) : Prop :=
  Step w limit a b ∧ b.stream.phase ≠ .idle

def Poll (w : Request δ) (limit : ℕ) (a b : World δ) : Prop :=
  a.stream.phase = .idle ∧
    Relation.ReflTransGen (Busy w limit) ⟨a.log, { a.stream with phase := .polled a.log.horizon }⟩ b ∧
    ∃ h n, b.stream.phase = .sending h n []

inductive Polls (w : Request δ) (limit : ℕ) : ℕ → World δ → World δ → Prop
  | none {a b : World δ} (h : Reaches w limit a b) : Polls w limit 0 a b
  | poll {a b c d : World δ} {k : ℕ} (h : Reaches w limit a b) (hpoll : Poll w limit b c)
      (hrest : Polls w limit k c d) : Polls w limit (k + 1) a d

def Request.backlog (w : Request δ) (a : World δ) (e : Entry δ) : ℕ :=
  (a.log.visible.filter fun r => w.covers r.key ∧ a.stream.cursor < pos r ∧ pos r ≤ pos e).length

theorem backlog_write (w : Request δ) {L L' : Changelog δ} (s : Stream δ) {e : Entry δ}
    (he : e.commitXid < L.horizon) (hstep : L.Step L') : w.backlog ⟨L', s⟩ e = w.backlog ⟨L, s⟩ e := by
  unfold Request.backlog
  congr 1
  refine hstep.visible_filter ?_
  intro r hr
  have hle : pos r ≤ pos e := (of_decide_eq_true hr).2.2
  exact lt_of_le_of_lt (xid_le_of_pos_le hle) he

theorem backlog_send {w : Request δ} {limit : ℕ} {L : Changelog δ} {s : Stream δ} {h n : ℕ} {r e : Entry δ}
    {rest : List (Entry δ)} (hf : Fetched w limit L s.cursor h n (r :: rest)) (hle : pos r ≤ pos e) {t : Stream δ}
    (ht : t.cursor = pos r) : w.backlog ⟨L, t⟩ e < w.backlog ⟨L, s⟩ e := by
  obtain ⟨hvis, _, hafter, hcovers⟩ := mem_pending.mp (hf.sound r List.mem_cons_self)
  unfold Request.backlog
  rw [ht]
  have hsub : (L.visible.filter fun q => w.covers q.key ∧ pos r < pos q ∧ pos q ≤ pos e).Sublist
      (L.visible.filter fun q => w.covers q.key ∧ s.cursor < pos q ∧ pos q ≤ pos e) := by
    refine List.monotone_filter_right _ fun q hq => ?_
    obtain ⟨hc, hlt, hqe⟩ := of_decide_eq_true hq
    exact decide_eq_true ⟨hc, hafter.trans hlt, hqe⟩
  refine lt_of_le_of_ne hsub.length_le fun hlen => ?_
  have hmem : r ∈ L.visible.filter fun q => w.covers q.key ∧ s.cursor < pos q ∧ pos q ≤ pos e :=
    List.mem_filter.mpr ⟨hvis, decide_eq_true ⟨hcovers, hafter, hle⟩⟩
  rw [← hsub.eq_of_length hlen] at hmem
  exact lt_irrefl _ (of_decide_eq_true (List.mem_filter.mp hmem).2).2.1

theorem backlog_anti (w : Request δ) (L : Changelog δ) {s t : Stream δ} (h : s.cursor ≤ t.cursor) (e : Entry δ) :
    w.backlog ⟨L, t⟩ e ≤ w.backlog ⟨L, s⟩ e := by
  refine (List.monotone_filter_right L.visible fun q hq => ?_).length_le
  obtain ⟨hc, hlt, hqe⟩ := of_decide_eq_true hq
  exact decide_eq_true ⟨hc, lt_of_le_of_lt h hlt, hqe⟩

theorem Live.cursor_le {w : Request δ} {limit : ℕ} {start : ℕ ×ₗ ℕ} {a b : World δ} (h : Live w limit start a)
    (hstep : Step w limit a b) : a.stream.cursor ≤ b.stream.cursor := by
  cases hstep with
  | write s hlog => exact le_rfl
  | read L hread =>
    cases hread with
    | horizon hidle => exact le_rfl
    | rows hphase => exact le_rfl
    | send hphase => exact (mem_pending.mp ((h.sending _ _ _ hphase).sound _ List.mem_cons_self)).2.2.1.le
    | done hphase => exact le_rfl
    | fail => exact le_rfl

theorem Live.backlog_le {w : Request δ} {limit : ℕ} {start : ℕ ×ₗ ℕ} {a b : World δ} (h : Live w limit start a)
    {e : Entry δ} (he : e.commitXid < a.log.horizon) (hstep : Step w limit a b) : w.backlog b e ≤ w.backlog a e := by
  have hcursor := h.cursor_le hstep
  cases hstep with
  | write s hlog => exact (backlog_write w s he hlog).le
  | read L hread => exact backlog_anti w L hcursor e

theorem Live.reaches_le {w : Request δ} {limit : ℕ} {start : ℕ ×ₗ ℕ} {a b : World δ} (h : Live w limit start a)
    {e : Entry δ} (he : e.commitXid < a.log.horizon) (hreach : Reaches w limit a b) :
    a.stream.cursor ≤ b.stream.cursor ∧ w.backlog b e ≤ w.backlog a e := by
  induction hreach with
  | refl => exact ⟨le_rfl, le_rfl⟩
  | tail hreach hstep ih =>
    have hlive := h.reaches hreach
    have he' := lt_of_lt_of_le he (Reaches.grows hreach).horizon_le
    exact ⟨ih.1.trans (hlive.cursor_le hstep), (hlive.backlog_le he' hstep).trans ih.2⟩

def Phase.horizon : Phase δ → ℕ
  | .idle => 0
  | .polled h => h
  | .sending h _ _ => h

def Phase.sent : Phase δ → ℕ
  | .idle => 0
  | .polled _ => 0
  | .sending _ n _ => n

structure Underway (w : Request δ) (limit : ℕ) (start : ℕ ×ₗ ℕ) (e : Entry δ) (h owed : ℕ) (b : World δ) : Prop where
  live : Live w limit start b
  below : e.commitXid < b.log.horizon
  busy : b.stream.phase ≠ .idle
  horizon : b.stream.phase.horizon = h
  paid : pos e ≤ b.stream.cursor ∨ w.backlog b e + b.stream.phase.sent ≤ owed

theorem Underway.step {w : Request δ} {limit : ℕ} {start : ℕ ×ₗ ℕ} {e : Entry δ} {h owed : ℕ} {a b : World δ}
    (hu : Underway w limit start e h owed a) (hstep : Busy w limit a b) : Underway w limit start e h owed b := by
  refine ⟨hu.live.step hstep.1, lt_of_lt_of_le hu.below hstep.1.grows.horizon_le, hstep.2, ?_, ?_⟩
  · obtain ⟨hstep, hbusy⟩ := hstep
    have hh := hu.horizon
    cases hstep with
    | write s hlog => exact hh
    | read L hread =>
      cases hread with
      | horizon hidle => exact absurd hidle hu.busy
      | rows hphase =>
        rw [hphase] at hh
        exact hh
      | send hphase =>
        rw [hphase] at hh
        exact hh
      | done hphase => exact absurd rfl hbusy
      | fail => exact absurd rfl hbusy
  · obtain ⟨hstep, hbusy⟩ := hstep
    have hpaid := hu.paid
    cases hstep with
    | write s hlog =>
      rw [backlog_write w s hu.below hlog]
      exact hpaid
    | @read L s t hread =>
      cases hread with
      | horizon hidle => exact absurd hidle hu.busy
      | rows hphase =>
        rw [hphase] at hpaid
        exact hpaid
      | @send m n r rest hphase =>
        by_cases hle : pos e ≤ pos r
        · exact .inl hle
        · have hlt : pos r < pos e := not_le.mp hle
          have hf : Fetched w limit L s.cursor m n (r :: rest) := hu.live.sending _ _ _ hphase
          have hafter := (mem_pending.mp (hf.sound r List.mem_cons_self)).2.2.1
          rcases hpaid with hpassed | hpaid
          · exact absurd (hpassed.trans hafter.le) hle
          · right
            rw [hphase] at hpaid
            have hless := backlog_send hf hlt.le (t := s.advanceCursor r) rfl
            change w.backlog ⟨L, s.advanceCursor r⟩ e + (n + 1) ≤ owed
            change w.backlog ⟨L, s⟩ e + n ≤ owed at hpaid
            omega
      | done hphase => exact absurd rfl hbusy
      | fail => exact absurd rfl hbusy

theorem Poll.reaches {w : Request δ} {limit : ℕ} {a b : World δ} (h : Poll w limit a b) : Reaches w limit a b := by
  obtain ⟨hidle, hbusy, _⟩ := h
  refine Relation.ReflTransGen.head (.read a.log (.horizon a.stream hidle)) ?_
  exact Relation.ReflTransGen.mono (fun _ _ hstep => hstep.1) _ _ hbusy

theorem Live.poll {w : Request δ} {limit : ℕ} {start : ℕ ×ₗ ℕ} {a b : World δ} (ha : Live w limit start a)
    {e : Entry δ} (hvis : e ∈ a.log.visible) (hcovers : w.covers e.key) (he : e.commitXid < a.log.horizon)
    (hpoll : Poll w limit a b) : pos e ≤ b.stream.cursor ∨ w.backlog b e + limit ≤ w.backlog a e := by
  obtain ⟨hidle, hbusy, h, n, hphase⟩ := hpoll
  have hstart : Underway w limit start e a.log.horizon (w.backlog a e)
      ⟨a.log, { a.stream with phase := .polled a.log.horizon }⟩ :=
    ⟨ha.step (.read a.log (.horizon a.stream hidle)), he, fun h => (nomatch h), rfl, .inr le_rfl⟩
  have hend : Underway w limit start e a.log.horizon (w.backlog a e) b := by
    clear hphase
    induction hbusy with
    | refl => exact hstart
    | tail _ hstep ih => exact ih.step hstep
  have hgrows : a.log.Grows b.log := Reaches.grows (Poll.reaches ⟨hidle, hbusy, h, n, hphase⟩)
  have hh := hend.horizon
  rcases hend.paid with hpassed | hpaid
  · exact .inl hpassed
  · by_cases hpassed : pos e ≤ b.stream.cursor
    · exact .inl hpassed
    · right
      rw [hphase] at hh hpaid
      change h = a.log.horizon at hh
      change w.backlog b e + n ≤ w.backlog a e at hpaid
      have hpend : e ∈ w.pending b.log h b.stream.cursor :=
        mem_pending.mpr ⟨hgrows.visible hvis, hh ▸ he, not_le.mp hpassed, hcovers⟩
      rcases (hend.live.sending _ _ _ hphase).complete e hpend with hmem | ⟨hfull, _⟩
      · cases hmem
      · rw [List.length_nil] at hfull
        omega

theorem Live.polls {w : Request δ} {limit k : ℕ} {start : ℕ ×ₗ ℕ} {a b : World δ} (ha : Live w limit start a)
    {e : Entry δ} (hvis : e ∈ a.log.visible) (hcovers : w.covers e.key) (he : e.commitXid < a.log.horizon)
    (hk : w.backlog a e ≤ k * limit) (hpolls : Polls w limit k a b) : pos e ≤ b.stream.cursor := by
  induction hpolls with
  | @none a b hreach =>
    refine le_trans ?_ (ha.reaches_le he hreach).1
    by_contra hlt
    have hmem : e ∈ a.log.visible.filter fun r => w.covers r.key ∧ a.stream.cursor < pos r ∧ pos r ≤ pos e :=
      List.mem_filter.mpr ⟨hvis, decide_eq_true ⟨hcovers, not_le.mp hlt, le_rfl⟩⟩
    have hpos : 0 < w.backlog a e := List.length_pos_of_mem hmem
    rw [Nat.zero_mul] at hk
    exact absurd (lt_of_lt_of_le hpos hk) (lt_irrefl 0)
  | @poll a b c d k hreach hpoll hrest ih =>
    have hb := ha.reaches hreach
    have hbx : e.commitXid < b.log.horizon := lt_of_lt_of_le he hreach.grows.horizon_le
    have hbvis := hreach.grows.visible hvis
    have hcvis := hpoll.reaches.grows.visible hbvis
    have hcx : e.commitXid < c.log.horizon := lt_of_lt_of_le hbx hpoll.reaches.grows.horizon_le
    have hle := (ha.reaches_le he hreach).2
    refine ih (hb.reaches hpoll.reaches) hcvis hcx ?_
    rw [Nat.succ_mul] at hk
    rcases hb.poll hbvis hcovers hbx hpoll with hpassed | hpaid
    · have hzero : w.backlog c e = 0 := by
        refine List.length_eq_zero_iff.mpr (List.filter_eq_nil_iff.mpr fun r _ hr => ?_)
        obtain ⟨_, hlt, hre⟩ := of_decide_eq_true hr
        exact absurd (hre.trans hpassed) (not_le.mpr hlt)
      omega
    · omega

theorem Polls.reaches {w : Request δ} {limit k : ℕ} {a b : World δ} (h : Polls w limit k a b) :
    Reaches w limit a b := by
  induction h with
  | none hreach => exact hreach
  | poll hreach hpoll _ ih => exact (hreach.trans hpoll.reaches).trans ih

theorem exists_sent (w : Request δ) (limit : ℕ) (L : Changelog δ) (h : ℕ) (rest : List (Entry δ)) :
    ∀ (n : ℕ) (s : Stream δ), s.phase = .sending h n rest →
      ∃ t, Relation.ReflTransGen (Busy w limit) ⟨L, s⟩ ⟨L, t⟩ ∧ ∃ m, t.phase = .sending h m [] := by
  induction rest with
  | nil => exact fun n s hphase => ⟨s, .refl, n, hphase⟩
  | cons e rest ih =>
    intro n s hphase
    obtain ⟨t, hbusy, hend⟩ := ih (n + 1)
      { s.advanceCursor e with result := s.result ++ (w.event e).toList, phase := .sending h (n + 1) rest } rfl
    exact ⟨t, .head ⟨.read L (.send s hphase), fun hidle => (nomatch hidle)⟩ hbusy, hend⟩

theorem exists_polls (w : Request δ) (limit k : ℕ) (a : World δ) : ∃ b, Polls w limit k a b := by
  induction k generalizing a with
  | zero => exact ⟨a, .none .refl⟩
  | succ k ih =>
    obtain ⟨t, hbusy, m, hend⟩ := exists_sent w limit a.log a.log.horizon
      ((w.pending a.log a.log.horizon a.stream.cursor).take limit) 0
      { a.stream with
        phase := .sending a.log.horizon 0 ((w.pending a.log a.log.horizon a.stream.cursor).take limit) } rfl
    obtain ⟨b, hb⟩ := ih ⟨a.log, t⟩
    have hfetch : Busy w limit ⟨a.log, { a.stream with phase := .polled a.log.horizon }⟩
        ⟨a.log, { a.stream with
          phase := .sending a.log.horizon 0 ((w.pending a.log a.log.horizon a.stream.cursor).take limit) }⟩ :=
      ⟨.read a.log (.rows { a.stream with phase := .polled a.log.horizon } rfl), fun hidle => (nomatch hidle)⟩
    refine ⟨b, .poll (.single (.read a.log (.fail a.stream))) ⟨rfl, ?_, a.log.horizon, m, hend⟩ hb⟩
    exact .head hfetch hbusy

theorem map_toWatchEvent {rows : List (Entry δ)} (h : ∀ e ∈ rows, e.data.isSome) :
    (rows.filterMap toWatchEvent).map some = rows.map toWatchEvent := by
  induction rows with
  | nil => rfl
  | cons e rows ih =>
    obtain ⟨d, hd⟩ := Option.isSome_iff_exists.mp (h e List.mem_cons_self)
    have hev : toWatchEvent e = some ⟨e.eventType, e.key, d, e.resourceVersion⟩ := by
      rw [toWatchEvent, hd]
      rfl
    rw [List.filterMap_cons_some hev, List.map_cons, List.map_cons, hev,
      ih fun r hr => h r (List.mem_cons_of_mem _ hr)]

theorem watch_exactlyOnce (w : Request δ) (hempty : w.predicate = none) (limit : ℕ) (L : Changelog δ)
    (cursor : ℕ ×ₗ ℕ) (rv : ℕ) (a : World δ) (hreach : Reaches w limit (World.start L cursor rv) a)
    (hdata : ∀ e ∈ a.log.rows, e.data.isSome) :
    ∃ rows : List (Entry δ),
      rows.Pairwise (fun r s => pos r < pos s) ∧
      (∀ e, e ∈ rows ↔ e ∈ a.log.visible ∧ w.covers e.key ∧ cursor < pos e ∧ pos e ≤ a.stream.cursor) ∧
      a.stream.result.map some = rows.map toWatchEvent ∧
      (∀ L', a.log.Grows L' → ∀ e ∈ L'.visible, w.covers e.key → cursor < pos e → pos e ≤ a.stream.cursor →
        e ∈ rows) ∧
      ∀ e ∈ a.log.visible, w.covers e.key → cursor < pos e → (∀ x < e.commitXid, ¬ a.log.Running x) →
        ∀ k, w.backlog a e ≤ k * limit →
          (∃ b, Polls w limit k a b) ∧ ∀ b, Polls w limit k a b → ∃ sent, Emitted w cursor b sent ∧ e ∈ sent := by
  have hlive := (start_live w limit L cursor rv).reaches hreach
  obtain ⟨rows, hrows⟩ := hlive.emitted
  have hevent : w.event = toWatchEvent := funext (w.event_of_empty hempty)
  refine ⟨rows, hrows.ascending, hrows.mem, ?_, ?_, ?_⟩
  · rw [hrows.result, hevent]
    refine map_toWatchEvent fun e he => hdata e ?_
    exact (Log.mem_visible.mp ((hrows.mem e).mp he).1).1
  · intro L' hgrows e hvis hcovers hstart hle
    exact (hrows.mem e).mpr ⟨(hlive.visible_iff hgrows hstart hle).mp hvis, hcovers, hstart, hle⟩
  · intro e hvis hcovers hstart hfinished k hk
    refine ⟨exists_polls w limit k a, fun b hpolls => ?_⟩
    have hx : e.commitXid < a.log.horizon :=
      Log.lt_horizon_of_finished (Log.mem_visible.mp hvis).2 hfinished
    have hreached := hpolls.reaches
    obtain ⟨sent, hsent⟩ := (hlive.reaches hreached).emitted
    have hle := hlive.polls hvis hcovers hx hk hpolls
    exact ⟨sent, hsent, (hsent.mem e).mpr ⟨(Reaches.grows hreached).visible hvis, hcovers, hstart, hle⟩⟩

def edgeAdded : Entry ℕ := ⟨['/', 'a'], 2, .added, some 7, 1, 1, 0⟩

def coreAdded : Entry ℕ := ⟨['/', 'b'], 3, .added, some 8, 0, 2, 0⟩

-- the transaction with the larger number commits first
def twoWriters : Changelog ℕ :=
  ((((Log.empty.begin.begin.insert edgeAdded rfl (by decide)).finish 1 .committed).insert coreAdded rfl
    (by decide)).finish 0 .committed)

def everything : Request ℕ := { key := ['/'] }

def fetchedBoth : Stream ℕ :=
  ⟨toLex (0, 0), 0, [], .sending 2 0 ((everything.pending twoWriters 2 (toLex (0, 0))).take 500)⟩

def sentFirst : World ℕ :=
  ⟨twoWriters, ⟨toLex (0, 2), 3, [⟨.added, ['/', 'b'], 8, 3⟩], .sending 2 1 [edgeAdded]⟩⟩

theorem sentFirst_reached : Reaches everything 500 (World.start twoWriters (toLex (0, 0)) 0) sentFirst := by
  have hphase : fetchedBoth.phase = .sending 2 0 [coreAdded, edgeAdded] := by decide
  refine .tail (b := ⟨twoWriters, fetchedBoth⟩) ?_ (.read _ (.send _ hphase))
  exact .tail (.single (.read _ (.horizon _ rfl))) (.read _ (.rows _ rfl))

theorem watch_exactlyOnce_twoWriters :
    (∃ rows : List (Entry ℕ), sentFirst.stream.result.map some = rows.map toWatchEvent ∧
      coreAdded ∈ rows ∧ edgeAdded ∉ rows) ∧
    ∀ b, Polls everything 500 1 sentFirst b → ∃ sent, Emitted everything (toLex (0, 0)) b sent ∧ edgeAdded ∈ sent := by
  have hdata : ∀ e ∈ sentFirst.log.rows, e.data.isSome := by decide
  obtain ⟨rows, _, hmem, hresult, _, hlive⟩ :=
    watch_exactlyOnce everything rfl 500 twoWriters (toLex (0, 0)) 0 sentFirst sentFirst_reached hdata
  refine ⟨⟨rows, hresult, (hmem _).mpr (by decide), fun h => absurd ((hmem _).mp h) (by decide)⟩, ?_⟩
  exact (hlive edgeAdded (by decide) (by decide) (by decide) (by decide) 1 (by decide)).2

end Ipam.Watch
