import Ipam.Watch.Resume

/-!
What wakes a watch. A commit notifies the listener of each row it wrote, the listener kicks the watch, and the loop of
`poll` takes the kick, lets further kicks collapse into it and drains the changelog. Between kicks the loop drains for
a version on the progress channel, polls one batch on its ticker and sends bookmarks.
-/

namespace Ipam.Watch

open Changefeed

variable {δ : Type}

inductive Listener where
  | down
  | joined
  | waiting
  deriving DecidableEq, Repr

inductive Task where
  | select
  | coalesce
  | drain (progress : Option ℕ)
  | tick
  deriving DecidableEq, Repr

/-- A watch with its two channels of one element, and the bookmarks that it sent, each as its version and the number of
events sent before it. -/
structure Hub (δ : Type) where
  store : Store δ
  stream : Stream δ
  listener : Listener
  queue : ℕ
  kick : Bool
  progress : Option ℕ
  task : Task
  stopped : Bool
  bookmarks : List (ℕ × ℕ)

namespace Hub

def start (S : Store δ) (cursor : ℕ ×ₗ ℕ) (lastRV : ℕ) (listener : Listener) (queue : ℕ) : Hub δ :=
  ⟨S, ⟨cursor, lastRV, [], .idle⟩, listener, queue, false, none, .select, false, []⟩

/-- `pg_notify` goes out with the commit, once for each row of the transaction. -/
def write (a : Hub δ) (S : Store δ) : Hub δ :=
  { a with
    store := S
    queue := if a.listener = .down then 0 else a.queue + (S.log.visible.length - a.store.log.visible.length) }

def kickAll (a : Hub δ) : Hub δ :=
  { a with kick := a.kick || !a.stopped }

-- a full channel keeps the version it holds
def notifyProgress (a : Hub δ) (rv : ℕ) : Hub δ :=
  { a with progress := if a.stopped then a.progress else a.progress.or (some rv) }

def sendBookmark (a : Hub δ) (rv : ℕ) : Hub δ :=
  { a with stream := a.stream.bookmark rv, bookmarks := a.bookmarks ++ [(rv, a.stream.result.length)] }

def complete (a : Hub δ) : Hub δ :=
  let b := { a with stream := { a.stream with phase := .idle }, task := .select }
  match a.task with
  | .drain (some rv) => b.sendBookmark (max a.stream.lastRV rv)
  | _ => b

def Polling (a : Hub δ) : Prop :=
  a.task = .tick ∨ ∃ p, a.task = .drain p

inductive Step (failing : Prop) (w : Request δ) (limit : ℕ) : Hub δ → Hub δ → Prop
  | write (a : Hub δ) {S : Store δ} (h : a.store.Step S) : Step failing w limit a (a.write S)
  | listen (a : Hub δ) (h : a.listener = .down) : Step failing w limit a { a with listener := .joined, queue := 0 }
  | join (a : Hub δ) (h : a.listener = .joined) : Step failing w limit a { a.kickAll with listener := .waiting }
  | notification (a : Hub δ) {n : ℕ} (h : a.listener = .waiting) (hqueue : a.queue = n + 1) :
      Step failing w limit a { a.kickAll with queue := n }
  | disconnect (a : Hub δ) : Step failing w limit a { a with listener := .down, queue := 0 }
  | request (a : Hub δ) (rv : ℕ) : Step failing w limit a (a.notifyProgress rv)
  | takeProgress (a : Hub δ) {rv : ℕ} (h : a.task = .select) (hprogress : a.progress = some rv) :
      Step failing w limit a { a with progress := none, task := .drain (some rv) }
  | takeKick (a : Hub δ) (h : a.task = .select) (hkick : a.kick = true) :
      Step failing w limit a { a with kick := false, task := .coalesce }
  | coalesced (a : Hub δ) (h : a.task = .coalesce) :
      Step failing w limit a { a with kick := false, task := .drain none }
  | ticked (a : Hub δ) (h : a.task = .select) : Step failing w limit a { a with task := .tick }
  | read (a : Hub δ) {s : Stream δ} (h : a.Polling) (hread : Reads w limit a.store.log a.stream s)
      (hbusy : s.phase ≠ .idle) : Step failing w limit a { a with stream := s }
  | full (a : Hub δ) {p : Option ℕ} {h n : ℕ} (htask : a.task = .drain p) (hphase : a.stream.phase = .sending h n [])
      (hfull : limit ≤ n) : Step failing w limit a { a with stream := { a.stream with phase := .idle } }
  | polled (a : Hub δ) {h n : ℕ} (hpolling : a.Polling) (hphase : a.stream.phase = .sending h n [])
      (hlast : a.task = .tick ∨ n < limit) : Step failing w limit a a.complete
  | fail (a : Hub δ) (h : failing ∨ a.stopped = true) (hpolling : a.Polling) : Step failing w limit a a.complete
  | periodic (a : Hub δ) (h : a.task = .select) (hnew : a.stream.lastRV < a.store.committedMaxResourceVersion) :
      Step failing w limit a (a.sendBookmark a.store.committedMaxResourceVersion)
  | stop (a : Hub δ) : Step failing w limit a { a with stopped := true }
  -- a stopped watch leaves what it is doing
  | quit (a : Hub δ) (h : a.stopped = true) :
      Step failing w limit a { a with stream := { a.stream with phase := .idle }, task := .select }

abbrev Reaches (failing : Prop) (w : Request δ) (limit : ℕ) : Hub δ → Hub δ → Prop :=
  Relation.ReflTransGen (Step failing w limit)

def world (a : Hub δ) : World δ :=
  ⟨a.store.log, a.stream⟩

structure Quiet (a : Hub δ) : Prop where
  listener : a.listener = .waiting
  queue : a.queue = 0
  kick : a.kick = false
  task : a.task = .select
  stopped : a.stopped = false

end Hub

theorem Live.idle {w : Request δ} {limit : ℕ} {start : ℕ ×ₗ ℕ} {L : Changelog δ} {s : Stream δ}
    (h : Live w limit start ⟨L, s⟩) : Live w limit start ⟨L, { s with phase := .idle }⟩ :=
  h.step (.read L (.fail s))

theorem Live.bookmark {w : Request δ} {limit : ℕ} {start : ℕ ×ₗ ℕ} {L : Changelog δ} {s : Stream δ}
    (h : Live w limit start ⟨L, s⟩) (rv : ℕ) : Live w limit start ⟨L, s.bookmark rv⟩ :=
  ⟨h.emitted.imp fun _ hr => ⟨hr.ascending, hr.mem, hr.result⟩, h.start_le, h.settled, h.polled, h.sending⟩

structure Awake (w : Request δ) (limit : ℕ) (start : ℕ ×ₗ ℕ) (a : Hub δ) : Prop where
  live : Live w limit start a.world
  idle : a.Polling ∨ a.stream.phase = .idle

section Run

variable {failing : Prop} {w : Request δ} {limit : ℕ} {start : ℕ ×ₗ ℕ} {a b : Hub δ}

theorem Awake.complete (h : Awake w limit start a) : Awake w limit start a.complete := by
  unfold Hub.complete
  split
  · exact ⟨h.live.idle.bookmark _, .inr rfl⟩
  · exact ⟨h.live.idle, .inr rfl⟩

theorem Awake.step (h : Awake w limit start a) (hstep : Hub.Step failing w limit a b) : Awake w limit start b := by
  have hidle (hselect : ¬ a.Polling) : a.stream.phase = .idle := h.idle.resolve_left hselect
  cases hstep with
  | write hwrite => exact ⟨h.live.step (.write _ hwrite.log), h.idle⟩
  | listen | join | notification | disconnect | request | stop => exact ⟨h.live, h.idle⟩
  | takeProgress | coalesced => exact ⟨h.live, .inl (.inr ⟨_, rfl⟩)⟩
  | takeKick htask => exact ⟨h.live, .inr (hidle (by simp [Hub.Polling, htask]))⟩
  | ticked => exact ⟨h.live, .inl (.inl rfl)⟩
  | read hpolling hread => exact ⟨h.live.step (.read _ hread), .inl hpolling⟩
  | full htask => exact ⟨h.live.idle, .inr rfl⟩
  | polled | fail => exact h.complete
  | periodic => exact ⟨h.live.bookmark _, h.idle⟩
  | quit => exact ⟨h.live.idle, .inr rfl⟩

theorem Awake.reaches (h : Awake w limit start a) (hreach : Hub.Reaches failing w limit a b) :
    Awake w limit start b := by
  induction hreach with
  | refl => exact h
  | tail _ hstep ih => exact ih.step hstep

theorem start_awake (S : Store δ) (rv : ℕ) (l : Listener) (n : ℕ) :
    Awake w limit start (Hub.start S start rv l n) :=
  ⟨start_live w limit S.log start rv, .inr rfl⟩

def Stirred (e : Entry δ) (a : Hub δ) : Prop :=
  pos e ≤ a.stream.cursor ∨ a.stopped = true ∨ a.listener ≠ .waiting ∨ 0 < a.queue ∨ a.kick = true

def Owed (e : Entry δ) (a : Hub δ) : Prop :=
  Stirred e a ∨ a.task = .coalesce ∨
    (∃ p, a.task = .drain p) ∧ (a.stream.phase = .idle ∨ e.commitXid < a.stream.phase.horizon)

theorem stirred_kickAll (e : Entry δ) (a : Hub δ) (l : Listener) (n : ℕ) :
    Stirred e { a.kickAll with listener := l, queue := n } := by
  cases hstopped : a.stopped with
  | true => exact .inr (.inl hstopped)
  | false => exact .inr (.inr (.inr (.inr (by simp [Hub.kickAll, hstopped]))))

theorem Stirred.write {e : Entry δ} (h : Stirred e a) (S : Store δ) : Stirred e (a.write S) := by
  rcases h with hsent | hstopped | hlistener | hqueue | hkick
  · exact .inl hsent
  · exact .inr (.inl hstopped)
  · exact .inr (.inr (.inl hlistener))
  · by_cases hdown : a.listener = .down
    · exact .inr (.inr (.inl (by simp [Hub.write, hdown])))
    · refine .inr (.inr (.inr (.inl ?_)))
      simp only [Hub.write, if_neg hdown]
      omega
  · exact .inr (.inr (.inr (.inr hkick)))

theorem Stirred.complete {e : Entry δ} (h : Stirred e a) : Stirred e a.complete := by
  unfold Hub.complete
  split <;> exact h

theorem Stirred.advance {e : Entry δ} (h : Stirred e a) {s : Stream δ} (hle : a.stream.cursor ≤ s.cursor) :
    Stirred e { a with stream := s } :=
  h.imp_left fun hsent => hsent.trans hle

theorem Awake.drained {e : Entry δ} {h n : ℕ} (ha : Awake w limit start a) (he : e ∈ a.store.log.visible)
    (hcovers : w.covers e.key) (hphase : a.stream.phase = .sending h n []) (hlast : n < limit)
    (hx : e.commitXid < h) : pos e ≤ a.stream.cursor := by
  by_contra hle
  have hpending := mem_pending.mpr ⟨he, hx, not_le.mp hle, hcovers⟩
  rcases (ha.live.sending h n [] hphase).complete e hpending with hmem | ⟨hfull, -⟩
  · exact absurd hmem List.not_mem_nil
  · simp only [List.length_nil] at hfull
    omega

theorem reads_horizon {e : Entry δ} {L : Changelog δ} {s s' : Stream δ} (hread : Reads w limit L s s')
    (hbusy : s'.phase ≠ .idle) (hx : e.commitXid < L.horizon)
    (h : s.phase = .idle ∨ e.commitXid < s.phase.horizon) : e.commitXid < s'.phase.horizon := by
  cases hread with
  | horizon => exact hx
  | rows hphase | send hphase => simpa [hphase, Phase.horizon] using h
  | done | fail => exact absurd rfl hbusy

theorem Owed.step {e : Entry δ} (ha : Awake w limit start a) (he : e ∈ a.store.log.visible)
    (hcovers : w.covers e.key) (hx : e.commitXid < a.store.log.horizon) (h : Owed e a)
    (hstep : Hub.Step False w limit a b) : Owed e b := by
  have hselect (htask : a.task = .select) : Stirred e a := by
    rcases h with h | h | ⟨⟨p, h⟩, -⟩
    · exact h
    all_goals exact absurd (htask.symm.trans h) (by simp)
  cases hstep with
  | write => exact h.imp (fun hs => hs.write _) id
  | listen => exact .inl (.inr (.inr (.inl (by simp))))
  | join | notification => exact .inl (stirred_kickAll e a _ _)
  | disconnect => exact .inl (.inr (.inr (.inl (by simp))))
  | request => exact h
  | takeProgress htask => exact .inl (hselect htask)
  | takeKick => exact .inr (.inl rfl)
  | coalesced htask =>
    exact .inr (.inr ⟨⟨_, rfl⟩, .inl (ha.idle.resolve_left (by simp [Hub.Polling, htask]))⟩)
  | ticked htask => exact .inl (hselect htask)
  | read hpolling hread hbusy =>
    rcases h with hs | hcoalesce | ⟨hdrain, hphase⟩
    · exact .inl (hs.advance (ha.live.cursor_le (.read _ hread)))
    · exact .inr (.inl hcoalesce)
    · exact .inr (.inr ⟨hdrain, .inr (reads_horizon hread hbusy hx hphase)⟩)
  | full htask => exact .inr (.inr ⟨⟨_, htask⟩, .inl rfl⟩)
  | polled hpolling hphase hlast =>
    refine .inl (Stirred.complete ?_)
    rcases h with hs | hcoalesce | ⟨⟨p, hdrain⟩, hbelow⟩
    · exact hs
    · exact absurd hpolling (by simp [Hub.Polling, hcoalesce])
    · rw [hphase] at hbelow
      have hlast := hlast.resolve_left (by simp [hdrain])
      exact .inl (ha.drained he hcovers hphase hlast (hbelow.resolve_left (by simp)))
  | fail hstopped => exact .inl (Stirred.complete (.inr (.inl (hstopped.resolve_left id))))
  | periodic htask => exact .inl (hselect htask)
  | stop => exact .inl (.inr (.inl rfl))
  | quit hstopped => exact .inl (.inr (.inl hstopped))

theorem Hub.Step.grows (h : Hub.Step failing w limit a b) : a.store.log.Grows b.store.log := by
  cases h with
  | write hwrite => exact .single hwrite.log
  | polled | fail =>
    unfold Hub.complete
    split <;> exact .refl
  | _ => exact .refl

theorem Owed.reaches {e : Entry δ} (ha : Awake w limit start a) (he : e ∈ a.store.log.visible)
    (hcovers : w.covers e.key) (hx : e.commitXid < a.store.log.horizon) (h : Owed e a)
    (hreach : Hub.Reaches False w limit a b) : Owed e b ∧ a.store.log.Grows b.store.log := by
  induction hreach with
  | refl => exact ⟨h, .refl⟩
  | tail hreach hstep ih =>
    obtain ⟨howed, hgrows⟩ := ih
    have hnext := howed.step (ha.reaches hreach) (hgrows.visible he) hcovers
      (lt_of_lt_of_le hx hgrows.horizon_le) hstep
    exact ⟨hnext, hgrows.trans hstep.grows⟩

end Run

/-- No wake-up is lost. Whatever the watch has gone through, a committed row with no smaller transaction running and a
notification on its way, or no listener to take one, has been sent whenever nothing is under way any more, unless a
statement of the watch fails in between. -/
theorem wakeups_deliver (w : Request δ) (limit : ℕ) (S : Store δ) (cursor : ℕ ×ₗ ℕ) (rv queue : ℕ) (l : Listener)
    (a b : Hub δ) (hreach : Hub.Reaches True w limit (Hub.start S cursor rv l queue) a)
    (e : Entry δ) (he : e ∈ a.store.log.visible) (hcovers : w.covers e.key) (hafter : cursor < pos e)
    (hfinished : ∀ x < e.commitXid, ¬ a.store.log.Running x) (hnotified : 0 < a.queue ∨ a.listener ≠ .waiting)
    (hrun : Hub.Reaches False w limit a b) (hquiet : b.Quiet) :
    ∃ rows, Emitted w cursor b.world rows ∧ e ∈ rows := by
  have ha : Awake w limit cursor a := (start_awake S rv l queue).reaches hreach
  have hx : e.commitXid < a.store.log.horizon :=
    Log.lt_horizon_of_finished (Log.mem_visible.mp he).2 hfinished
  have howed : Owed e a :=
    .inl (hnotified.elim (fun h => .inr (.inr (.inr (.inl h)))) fun h => .inr (.inr (.inl h)))
  obtain ⟨hend, hgrows⟩ := howed.reaches ha he hcovers hx hrun
  have hsent : pos e ≤ b.stream.cursor := by
    rcases hend with (h | h | h | h | h) | h | ⟨⟨p, h⟩, -⟩
    · exact h
    · exact absurd (hquiet.stopped.symm.trans h) (by simp)
    · exact absurd hquiet.listener h
    · exact absurd hquiet.queue h.ne'
    · exact absurd (hquiet.kick.symm.trans h) (by simp)
    · exact absurd (hquiet.task.symm.trans h) (by simp)
    · exact absurd (hquiet.task.symm.trans h) (by simp)
  obtain ⟨rows, hrows⟩ := (ha.reaches hrun).live.emitted
  exact ⟨rows, hrows, (hrows.mem e).mpr ⟨hgrows.visible he, hcovers, hafter, hsent⟩⟩

-- the row was committed while the listener was down
def missed : Hub ℕ :=
  Hub.start firstOnly (toLex (0, 0)) 0 .down 0

def rejoined : Hub ℕ :=
  ⟨firstOnly, ⟨toLex (0, 1), 2, [⟨.added, ['/', 'a'], 7, 2⟩], .idle⟩, .waiting, 0, false, none, .select, false, []⟩

def fetchedMissed : Stream ℕ :=
  ⟨toLex (0, 0), 0, [], .sending 1 0 ((everything.pending firstOnly.log 1 (toLex (0, 0))).take 500)⟩

theorem missed_rejoined (failing : Prop) : Hub.Reaches failing everything 500 missed rejoined := by
  have hphase : fetchedMissed.phase = .sending 1 0 [firstRow] := by decide
  refine .head (.listen _ rfl) (.head (.join _ rfl) (.head (.takeKick _ rfl rfl) (.head (.coalesced _ rfl) ?_)))
  refine .head (.read _ (.inr ⟨_, rfl⟩) (.horizon _ rfl) (by simp)) ?_
  refine .head (.read _ (.inr ⟨_, rfl⟩) (.rows _ rfl) (by simp)) ?_
  refine .head (.read _ (.inr ⟨_, rfl⟩) (.send fetchedMissed hphase) (by simp)) ?_
  exact .single (.polled _ (.inr ⟨_, rfl⟩) rfl (.inr (by decide)))

theorem wakeups_deliver_missed : ∃ rows, Emitted everything (toLex (0, 0)) rejoined.world rows ∧ firstRow ∈ rows :=
  wakeups_deliver everything 500 firstOnly (toLex (0, 0)) 0 0 .down missed rejoined .refl firstRow (by decide)
    (by decide) (by decide) (by decide) (.inr (by decide)) (missed_rejoined False) ⟨rfl, rfl, rfl, rfl, rfl⟩

structure Marked (a : Hub δ) : Prop where
  events : ∀ ev ∈ a.stream.result, ev.resourceVersion ≤ a.stream.lastRV
  marks : ∀ m ∈ a.bookmarks, m.1 ≤ a.stream.lastRV ∧ m.2 ≤ a.stream.result.length ∧
    ∀ ev ∈ a.stream.result.take m.2, ev.resourceVersion ≤ m.1
  ascending : a.bookmarks.Pairwise fun m m' => m.1 ≤ m'.1

section Marks

variable {failing : Prop} {w : Request δ} {limit : ℕ} {a b : Hub δ}

theorem Marked.sendBookmark (h : Marked a) {rv : ℕ} (hrv : a.stream.lastRV ≤ rv) : Marked (a.sendBookmark rv) := by
  have hlast : (a.sendBookmark rv).stream.lastRV = rv := max_eq_right hrv
  refine ⟨fun ev hev => ?_, fun m hm => ?_, ?_⟩
  · rw [hlast]
    exact (h.events ev hev).trans hrv
  · rw [hlast]
    rcases List.mem_append.mp hm with hm | hm
    · obtain ⟨hle, hlen, hbefore⟩ := h.marks m hm
      exact ⟨hle.trans hrv, hlen, hbefore⟩
    · rw [List.mem_singleton.mp hm]
      exact ⟨le_rfl, le_rfl, fun ev hev => (h.events ev (List.mem_of_mem_take hev)).trans hrv⟩
  · refine List.pairwise_append.mpr ⟨h.ascending, List.pairwise_singleton _ _, fun m hm m' hm' => ?_⟩
    rw [List.mem_singleton.mp hm']
    exact (h.marks m hm).1.trans hrv

theorem Marked.complete (h : Marked a) : Marked a.complete := by
  unfold Hub.complete
  split
  · exact Marked.sendBookmark (a := { a with stream := { a.stream with phase := .idle }, task := .select })
      ⟨h.events, h.marks, h.ascending⟩ (le_max_left _ _)
  · exact ⟨h.events, h.marks, h.ascending⟩

theorem Marked.read (h : Marked a) {s : Stream δ} (hread : Reads w limit a.store.log a.stream s) :
    Marked { a with stream := s } := by
  cases hread with
  | horizon | rows | done | fail => exact ⟨h.events, h.marks, h.ascending⟩
  | @send _ _ e _ hphase =>
    refine ⟨fun ev hev => ?_, fun m hm => ?_, h.ascending⟩
    · rcases List.mem_append.mp hev with hev | hev
      · exact (h.events ev hev).trans (le_max_left _ _)
      · -- the event carries the version of its row
        have hversion : ev.resourceVersion = e.resourceVersion := by
          obtain ⟨hsome, -⟩ := Option.filter_eq_some_iff.mp (Option.mem_toList.mp hev)
          obtain ⟨d, -, rfl⟩ := Option.map_eq_some_iff.mp hsome
          rfl
        exact hversion.le.trans (le_max_right _ _)
    · obtain ⟨hle, hlen, hbefore⟩ := h.marks m hm
      refine ⟨hle.trans (le_max_left _ _), ?_, ?_⟩
      · rw [List.length_append]
        omega
      · rw [List.take_append_of_le_length hlen]
        exact hbefore

theorem Marked.step (h : Marked a) (hstep : Hub.Step failing w limit a b) : Marked b := by
  cases hstep with
  | read hpolling hread => exact h.read hread
  | polled | fail => exact h.complete
  | periodic htask hnew => exact h.sendBookmark hnew.le
  | _ => exact ⟨h.events, h.marks, h.ascending⟩

end Marks

theorem bookmarks_ascend (w : Request δ) (limit : ℕ) (S : Store δ) (cursor : ℕ ×ₗ ℕ) (rv queue : ℕ) (l : Listener)
    (a : Hub δ) (hreach : Hub.Reaches True w limit (Hub.start S cursor rv l queue) a) :
    a.bookmarks.Pairwise (fun m m' => m.1 ≤ m'.1) ∧
      ∀ m ∈ a.bookmarks, ∀ ev ∈ a.stream.result.take m.2, ev.resourceVersion ≤ m.1 := by
  have hmarked : Marked a := by
    induction hreach with
    | refl => exact ⟨fun _ h => absurd h List.not_mem_nil, fun _ h => absurd h List.not_mem_nil, .nil⟩
    | tail _ hstep ih => exact ih.step hstep
  exact ⟨hmarked.ascending, fun m hm => (hmarked.marks m hm).2.2⟩

-- the watch is then asked for its progress, once at version 5 and once at version 7
def progressed (rv : ℕ) (marks : List (ℕ × ℕ)) : Hub ℕ :=
  { rejoined with stream := { rejoined.stream with lastRV := rv }, bookmarks := marks }

theorem bookmarks_ascend_progressed :
    Hub.Reaches True everything 500 rejoined (progressed 7 [(5, 1), (7, 1)]) ∧
      (progressed 7 [(5, 1), (7, 1)]).bookmarks.Pairwise (fun m m' => m.1 ≤ m'.1) ∧
      ∀ m ∈ (progressed 7 [(5, 1), (7, 1)]).bookmarks,
        ∀ ev ∈ (progressed 7 [(5, 1), (7, 1)]).stream.result.take m.2, ev.resourceVersion ≤ m.1 := by
  have hfirst : Hub.Reaches True everything 500 rejoined (progressed 5 [(5, 1)]) := by
    refine .head (.request _ 5) (.head (.takeProgress _ rfl rfl) ?_)
    refine .head (.read _ (.inr ⟨_, rfl⟩) (.horizon _ rfl) (by simp)) ?_
    refine .head (.read _ (.inr ⟨_, rfl⟩) (.rows _ rfl) (by simp)) ?_
    exact .single (.polled _ (.inr ⟨_, rfl⟩) rfl (.inr (by decide)))
  have hsecond : Hub.Reaches True everything 500 (progressed 5 [(5, 1)]) (progressed 7 [(5, 1), (7, 1)]) := by
    refine .head (.request _ 7) (.head (.takeProgress _ rfl rfl) ?_)
    refine .head (.read _ (.inr ⟨_, rfl⟩) (.horizon _ rfl) (by simp)) ?_
    refine .head (.read _ (.inr ⟨_, rfl⟩) (.rows _ rfl) (by simp)) ?_
    exact .single (.polled _ (.inr ⟨_, rfl⟩) rfl (.inr (by decide)))
  have hreach := hfirst.trans hsecond
  exact ⟨hreach, bookmarks_ascend everything 500 firstOnly (toLex (0, 0)) 0 0 .down _
    ((missed_rejoined True).trans hreach)⟩

end Ipam.Watch
