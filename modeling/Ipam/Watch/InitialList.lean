import Ipam.Watch.Objects

namespace Ipam.Watch

open Changefeed

variable {δ : Type}

def channel (w : Request δ) (S : Store δ) (a : World δ) : List (Event δ) :=
  sendInitialEventList w S ++ a.stream.result

theorem initialList_handsOver (w : Request δ) (hempty : w.predicate = none) (limit : ℕ) (S : Store δ) (rv : ℕ)
    (a : World δ) (hreach : Reaches w limit (World.start S.log (initialCursor S.log) rv) a)
    (hdata : ∀ e ∈ a.log.rows, e.data.isSome) :
    (∃ rows : List (Entry δ),
      (channel w S a).map some = (sendInitialEventList w S).map some ++ rows.map toWatchEvent ∧
      rows.Nodup ∧ ∀ e ∈ rows, e ∈ a.log.visible ∧ w.covers e.key ∧
        (e.commitXid ∈ S.commits → S.log.horizon ≤ e.commitXid)) ∧
    ∀ e ∈ a.log.visible, w.covers e.key → (∀ x < e.commitXid, ¬ a.log.Running x) →
      ∀ k, w.backlog a e ≤ k * limit →
        (∃ b, Polls w limit k a b) ∧
        ∀ b, Polls w limit k a b → ∃ sent, Emitted w (initialCursor S.log) b sent ∧
          (e ∈ sent ↔ e.commitXid ∉ S.commits ∨ S.log.horizon ≤ e.commitXid) := by
  have hlive := (start_live w limit S.log (initialCursor S.log) rv).reaches hreach
  have hgrows : S.log.Grows a.log := Reaches.grows hreach
  obtain ⟨rows, hrows⟩ := hlive.emitted
  have hevent : w.event = toWatchEvent := funext (w.event_of_empty hempty)
  refine ⟨⟨rows, ?_, ?_, ?_⟩, ?_⟩
  · rw [channel, List.map_append, hrows.result, hevent, map_toWatchEvent]
    exact fun e he => hdata e (Log.mem_visible.mp ((hrows.mem e).mp he).1).1
  · exact hrows.ascending.imp fun hlt heq => absurd (heq ▸ hlt) (lt_irrefl _)
  · intro e he
    obtain ⟨hvis, hcovers, hstart, _⟩ := (hrows.mem e).mp he
    exact ⟨hvis, hcovers, fun _ => (initialCursor_lt_iff hgrows hvis).mp hstart⟩
  · intro e hvis hcovers hfinished k hk
    refine ⟨exists_polls w limit k a, fun b hpolls => ?_⟩
    have hx : e.commitXid < a.log.horizon :=
      Log.lt_horizon_of_finished (Log.mem_visible.mp hvis).2 hfinished
    have hreached := hpolls.reaches
    have hvisb := (Reaches.grows hreached).visible hvis
    obtain ⟨sent, hsent⟩ := (hlive.reaches hreached).emitted
    refine ⟨sent, hsent, ?_⟩
    rw [hsent.mem e, initialCursor_lt_iff hgrows hvis]
    constructor
    · rintro ⟨_, _, hhorizon, _⟩
      exact .inr hhorizon
    · intro hcase
      refine ⟨hvisb, hcovers, ?_, hlive.polls hvis hcovers hx hk hpolls⟩
      rcases hcase with hunseen | hhorizon
      · -- below the horizon the snapshot sees every transaction that commits
        by_contra hbelow
        have hold := (hgrows.visible_below (not_le.mp hbelow)).mp hvis
        exact hunseen ((S.commits_iff _).mpr (Log.mem_visible.mp hold).2)
      · exact hhorizon

-- the list sees the second transaction while the first is still running
def listedFirst : Store ℕ :=
  (Store.empty.begin.begin.insert edgeAdded rfl (by decide)).commit 1 rfl

def committedBoth : World ℕ :=
  World.start twoWriters (initialCursor listedFirst.log) 2

theorem committedBoth_reached :
    Reaches everything 500 (World.start listedFirst.log (initialCursor listedFirst.log) 2) committedBoth := by
  have hinsert : listedFirst.log.Step (listedFirst.log.insert coreAdded rfl (by decide)) := .insert _ _ _ _
  have hfinish : (listedFirst.log.insert coreAdded rfl (by decide)).Step twoWriters :=
    .finish _ 0 .committed rfl (by decide)
  exact .tail (.single (.write _ hinsert)) (.write _ hfinish)

theorem initialList_handsOver_twoWriters :
    (∃ b, Polls everything 500 1 committedBoth b) ∧ ∀ b, Polls everything 500 1 committedBoth b →
      (∃ sent, Emitted everything (initialCursor listedFirst.log) b sent ∧ coreAdded ∈ sent) ∧
      ∃ sent, Emitted everything (initialCursor listedFirst.log) b sent ∧ edgeAdded ∈ sent := by
  have hdata : ∀ e ∈ committedBoth.log.rows, e.data.isSome := by decide
  have h := (initialList_handsOver everything rfl 500 listedFirst 2 committedBoth committedBoth_reached hdata).2
  refine ⟨(h coreAdded (by decide) (by decide) (by decide) 1 (by decide)).1, ?_⟩
  intro b hb
  obtain ⟨core, hcore, hcoreIff⟩ := (h coreAdded (by decide) (by decide) (by decide) 1 (by decide)).2 b hb
  obtain ⟨edge, hedge, hedgeIff⟩ := (h edgeAdded (by decide) (by decide) (by decide) 1 (by decide)).2 b hb
  exact ⟨⟨core, hcore, hcoreIff.mpr (by decide)⟩, edge, hedge, hedgeIff.mpr (by decide)⟩

end Ipam.Watch
