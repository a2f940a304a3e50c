import Ipam.Watch.Objects

/-!
A client that lists, watches, keeps the versions it is handed and resumes from one of them. `given` holds the rows
whose change has reached the client: those of the transactions its lists saw and those its watch has sent.
-/

namespace Ipam.Watch

open Changefeed

variable {δ : Type}

structure Client (δ : Type) where
  store : Store δ
  given : List (Entry δ)
  stream : Stream δ
  start : ℕ ×ₗ ℕ
  -- the initial list is out and its closing bookmark is not
  ending : Bool
  -- a list that has read the objects and not yet its version
  listing : Option (List (Entry δ))
  -- the version on the progress channel
  progress : Option ℕ
  -- a version the client holds, with what it had been given by then
  advertised : Option (ℕ × List (Entry δ))

inductive Advert where
  | list
  | initialEnd
  | periodic
  | request
  | progress

def sentRow (s s' : Stream δ) : List (Entry δ) :=
  match s.phase, s'.phase with
  | .sending _ _ (e :: _), .sending _ _ _ => [e]
  | _, _ => []

def Stream.bookmark (s : Stream δ) (rv : ℕ) : Stream δ :=
  { s with lastRV := max s.lastRV rv }

def initialVersion (w : Request δ) (S : Store δ) (startRV : ℕ) : ℕ :=
  max startRV (maxVersion ((S.objects.filter fun o => w.covers o.key ∧ o.data.isSome).map Stored.resourceVersion))

namespace Client

def initial (S : Store δ) : Client δ :=
  ⟨S, [], openWatch S.log 0, (openWatch S.log 0).cursor, false, none, none, none⟩

def bookmarked (c : Client δ) (rv : ℕ) : Client δ :=
  { c with stream := c.stream.bookmark rv, advertised := some ((c.stream.bookmark rv).lastRV, c.given) }

inductive Step (ok : Advert → Client δ → Prop) (w : Request δ) (limit : ℕ) : Client δ → Client δ → Prop
  | write (c : Client δ) {S : Store δ} (h : c.store.Step S) : Step ok w limit c { c with store := S }
  | read (c : Client δ) {s : Stream δ} (hopen : c.ending = false) (h : Reads w limit c.store.log c.stream s) :
      Step ok w limit c { c with stream := s, given := c.given ++ sentRow c.stream s }
  | listObjects (c : Client δ) : Step ok w limit c { c with listing := some c.store.log.visible }
  | listVersion (c : Client δ) {rows : List (Entry δ)} (h : c.listing = some rows) (hok : ok .list c) :
      Step ok w limit c { c with
        listing := none, given := c.given ++ rows,
        advertised := some (c.store.currentResourceVersion, c.given ++ rows) }
  | initialList (c : Client δ) (startRV : ℕ) (h : startRV = 0 ∨ ∃ g, c.advertised = some (startRV, g)) :
      Step ok w limit c { c with
        stream := ⟨initialCursor c.store.log, initialVersion w c.store startRV, [], .idle⟩,
        start := initialCursor c.store.log, given := c.given ++ c.store.log.visible, ending := true }
  | initialEnd (c : Client δ) (h : c.ending = true) (hok : ok .initialEnd c) :
      Step ok w limit c { c.bookmarked c.store.committedMaxResourceVersion with ending := false }
  | periodic (c : Client δ) (hopen : c.ending = false) (hidle : c.stream.phase = .idle)
      (h : c.stream.lastRV < c.store.committedMaxResourceVersion) (hok : ok .periodic c) :
      Step ok w limit c (c.bookmarked c.store.committedMaxResourceVersion)
  | request (c : Client δ) (hok : ok .request c) :
      Step ok w limit c { c with progress := some c.store.currentResourceVersion }
  -- the drain before it is made of `read` steps; the bookmark goes out even if the drain fails
  | progress (c : Client δ) {rv : ℕ} (h : c.progress = some rv) (hopen : c.ending = false)
      (hidle : c.stream.phase = .idle) (hok : ok .progress c) :
      Step ok w limit c { c.bookmarked rv with progress := none }
  | resume (c : Client δ) {r : ℕ} {g : List (Entry δ)} (h : c.advertised = some (r, g)) :
      Step ok w limit c { c with
        stream := openWatch c.store.log r, start := (openWatch c.store.log r).cursor, given := g, ending := false }

abbrev Reaches (ok : Advert → Client δ → Prop) (w : Request δ) (limit : ℕ) : Client δ → Client δ → Prop :=
  Relation.ReflTransGen (Step ok w limit)

end Client

def Still (S : Store δ) : Prop :=
  (∀ x, ¬ S.log.Running x) ∧ S.log.visible ≠ []

/-- Versions are read while nobody writes: a list's version in the state its objects were read in, a bookmark's when
the watch has nothing left to send. -/
def Calm (w : Request δ) : Advert → Client δ → Prop
  | .list, c => Still c.store ∧ c.listing = some c.store.log.visible
  | .request, c => Still c.store
  | _, c => Still c.store ∧ w.pending c.store.log c.store.log.horizon c.stream.cursor = []

structure Versioned (S : Store δ) : Prop where
  distinct : S.log.rows.Pairwise fun a b => a.resourceVersion ≠ b.resourceVersion
  positive : ∀ e ∈ S.log.rows, 0 < e.resourceVersion

theorem Versioned.step {S S' : Store δ} (h : Versioned S) (hstep : S.Step S') : Versioned S' := by
  cases hstep with
  | begin => exact ⟨h.distinct, h.positive⟩
  | insert e hrun hid hfresh hpos =>
    refine ⟨List.pairwise_append.mpr ⟨h.distinct, List.pairwise_singleton _ _, ?_⟩, ?_⟩
    · intro a ha b hb
      rw [List.mem_singleton.mp hb]
      exact hfresh a ha
    · intro a ha
      rcases List.mem_append.mp ha with ha | ha
      · exact h.positive a ha
      · rw [List.mem_singleton.mp ha]
        exact hpos
  | commit x hrun => exact ⟨h.distinct, h.positive⟩
  | abort x hrun => exact ⟨h.distinct, h.positive⟩

theorem Versioned.eq {S : Store δ} (h : Versioned S) {e e' : Entry δ} (he : e ∈ S.log.visible)
    (he' : e' ∈ S.log.visible) (hrv : e.resourceVersion = e'.resourceVersion) : e = e' := by
  by_contra hne
  have hsymm : Std.Symm fun a b : Entry δ => a.resourceVersion ≠ b.resourceVersion := ⟨fun _ _ => Ne.symm⟩
  exact h.distinct.forall (Log.mem_visible.mp he).1 (Log.mem_visible.mp he').1 hne hrv

theorem Versioned.openWatch_cursor {S : Store δ} (h : Versioned S) {e : Entry δ} (he : e ∈ S.log.visible) :
    (openWatch S.log e.resourceVersion).cursor = pos e := by
  have hpos := h.positive e (Log.mem_visible.mp he).1
  unfold openWatch seedCursorFromRV
  rw [if_pos hpos]
  dsimp only
  have hmem : e ∈ (S.log.visible.filter (·.resourceVersion = e.resourceVersion)).insertionSort
      fun a b => b.id ≤ a.id :=
    (List.mem_insertionSort _).mpr (List.mem_filter.mpr ⟨he, decide_eq_true rfl⟩)
  split
  · rename_i r hr
    obtain ⟨hvis, hrv⟩ := List.mem_filter.mp (mem_of_head?_insertionSort hr)
    rw [h.eq hvis he (of_decide_eq_true hrv)]
  · rename_i hnone
    rw [List.head?_eq_none_iff.mp hnone] at hmem
    cases hmem

def Anchored (S : Store δ) (v : ℕ) : Prop :=
  ∃ e ∈ S.log.visible, e.resourceVersion = v

theorem Anchored.step {S S' : Store δ} {v : ℕ} (h : Anchored S v) (hstep : S.Step S') : Anchored S' v := by
  obtain ⟨e, he, hv⟩ := h
  exact ⟨e, hstep.log.visible he, hv⟩

theorem Anchored.max {S : Store δ} {u v : ℕ} (hu : u = 0 ∨ Anchored S u) (hv : Anchored S v) :
    Anchored S (max u v) := by
  rcases le_total u v with hle | hle
  · rwa [max_eq_right hle]
  · rw [max_eq_left hle]
    rcases hu with rfl | hu
    · rwa [Nat.le_zero.mp hle] at hv
    · exact hu

theorem Still.lt_horizon {S : Store δ} (h : Still S) {e : Entry δ} (he : e ∈ S.log.visible) :
    e.commitXid < S.log.horizon :=
  Log.lt_horizon_of_finished (Log.mem_visible.mp he).2 fun x _ => h.1 x

theorem maxVersion_objects {S : Store δ} {p : Stored δ → Bool} :
    maxVersion ((S.objects.filter p).map Stored.resourceVersion) = 0 ∨
      Anchored S (maxVersion ((S.objects.filter p).map Stored.resourceVersion)) := by
  refine (maxVersion_cases _).imp_right fun hmem => ?_
  obtain ⟨o, ho, heq⟩ := List.mem_map.mp hmem
  obtain ⟨e, he, rfl⟩ := Store.object_row (List.mem_of_mem_filter ho)
  exact ⟨e, he, heq⟩

theorem Still.committedMax {S : Store δ} (h : Still S) (hv : Versioned S) :
    Anchored S S.committedMaxResourceVersion ∧ 0 < S.committedMaxResourceVersion := by
  obtain ⟨e₀, he₀⟩ := List.exists_mem_of_ne_nil _ h.2
  have hfilter : S.log.visible.filter (·.commitXid < S.log.horizon) = S.log.visible :=
    List.filter_eq_self.mpr fun e he => decide_eq_true (h.lt_horizon he)
  have hle : e₀.resourceVersion ≤ maxVersion (S.log.visible.map Entry.resourceVersion) :=
    le_maxVersion (List.mem_map_of_mem he₀)
  have hpos := hv.positive e₀ (Log.mem_visible.mp he₀).1
  have hrows : Anchored S (maxVersion (S.log.visible.map Entry.resourceVersion)) := by
    rcases maxVersion_cases (S.log.visible.map Entry.resourceVersion) with hzero | hmem
    · omega
    · obtain ⟨e, he, heq⟩ := List.mem_map.mp hmem
      exact ⟨e, he, heq⟩
  have hobjects := maxVersion_objects (S := S) (p := fun _ => true)
  rw [List.filter_true] at hobjects
  unfold Store.committedMaxResourceVersion
  rw [hfilter]
  exact ⟨.max hobjects hrows, lt_of_lt_of_le (lt_of_lt_of_le hpos hle) (le_max_right _ _)⟩

theorem Still.current {S : Store δ} (h : Still S) (hv : Versioned S) : Anchored S S.currentResourceVersion := by
  obtain ⟨hanchor, hpos⟩ := h.committedMax hv
  rw [Store.currentResourceVersion, max_eq_left hpos]
  exact hanchor

def Resumable (w : Request δ) (S : Store δ) (r : ℕ) (g : List (Entry δ)) : Prop :=
  ∃ e ∈ S.log.visible, e.resourceVersion = r ∧ e.commitXid < S.log.horizon ∧
    ∀ e' ∈ S.log.visible, w.covers e'.key → pos e' ≤ pos e → e' ∈ g

theorem Resumable.step {w : Request δ} {S S' : Store δ} {r : ℕ} {g : List (Entry δ)} (h : Resumable w S r g)
    (hstep : S.Step S') : Resumable w S' r g := by
  obtain ⟨e, he, hrv, hx, hall⟩ := h
  refine ⟨e, hstep.log.visible he, hrv, lt_of_lt_of_le hx hstep.log.horizon_le, fun e' he' hcovers hle => ?_⟩
  have hx' : e'.commitXid < S.log.horizon := lt_of_le_of_lt (xid_le_of_pos_le hle) hx
  exact hall e' ((hstep.log.visible_below hx').mp he') hcovers hle

theorem Still.resumable {w : Request δ} {S : Store δ} (h : Still S) {v : ℕ} (hv : Anchored S v) {g : List (Entry δ)}
    (hall : ∀ e ∈ S.log.visible, w.covers e.key → e ∈ g) : Resumable w S v g := by
  obtain ⟨e, he, hrv⟩ := hv
  exact ⟨e, he, hrv, h.lt_horizon he, fun e' he' hcovers _ => hall e' he' hcovers⟩

structure Safe (w : Request δ) (limit : ℕ) (c : Client δ) : Prop where
  versioned : Versioned c.store
  live : Live w limit c.start ⟨c.store.log, c.stream⟩
  origin : c.start = toLex (0, 0) ∨ (ofLex c.start).1 < c.store.log.horizon
  seen : ∀ e ∈ c.store.log.visible, w.covers e.key → pos e ≤ c.stream.cursor → e ∈ c.given
  lastRV : c.stream.lastRV = 0 ∨ Anchored c.store c.stream.lastRV
  progress : ∀ v, c.progress = some v → Anchored c.store v
  advertised : ∀ r g, c.advertised = some (r, g) → Resumable w c.store r g

theorem initial_safe (w : Request δ) (limit : ℕ) {S : Store δ} (hS : Versioned S) : Safe w limit (.initial S) := by
  refine ⟨hS, start_live w limit S.log _ 0, .inl rfl, ?_, .inl rfl, fun v h => (nomatch h), fun r g h => (nomatch h)⟩
  intro e he _ hle
  exact absurd (zero_lt_pos (Log.mem_visible.mp he).1) (not_lt.mpr hle)

theorem Safe.settled {w : Request δ} {limit : ℕ} {c : Client δ} (h : Safe w limit c) :
    c.stream.cursor = toLex (0, 0) ∨ (ofLex c.stream.cursor).1 < c.store.log.horizon := by
  rcases h.live.settled with heq | hlt
  · have heq' : c.stream.cursor = c.start := heq
    rw [heq']
    exact h.origin
  · exact .inr hlt

theorem Safe.write {w : Request δ} {limit : ℕ} {c : Client δ} (h : Safe w limit c) {S : Store δ}
    (hstep : c.store.Step S) : Safe w limit { c with store := S } := by
  refine ⟨h.versioned.step hstep, h.live.write hstep.log, ?_, ?_, ?_, ?_, ?_⟩
  · exact h.origin.imp_right fun hlt => lt_of_lt_of_le hlt hstep.log.horizon_le
  · intro e he hcovers hle
    refine h.seen e ?_ hcovers hle
    rcases h.settled with heq | hlt
    · rw [heq] at hle
      exact absurd (zero_lt_pos (Log.mem_visible.mp he).1) (not_lt.mpr hle)
    · exact (hstep.log.visible_below (lt_of_le_of_lt (xid_le_of_pos_le hle) hlt)).mp he
  · exact h.lastRV.imp_right fun hv => hv.step hstep
  · exact fun v hv => (h.progress v hv).step hstep
  · exact fun r g hr => (h.advertised r g hr).step hstep

theorem Safe.read {w : Request δ} {limit : ℕ} {c : Client δ} (h : Safe w limit c) {s : Stream δ}
    (hread : Reads w limit c.store.log c.stream s) :
    Safe w limit { c with stream := s, given := c.given ++ sentRow c.stream s } := by
  refine ⟨h.versioned, h.live.step (.read c.store.log hread), h.origin, ?_, ?_, h.progress, h.advertised⟩
  · intro e he hcovers hle
    refine List.mem_append.mpr ?_
    by_cases hold : pos e ≤ c.stream.cursor
    · exact .inl (h.seen e he hcovers hold)
    · right
      generalize ht : c.stream = t at hread hold
      cases hread with
      | horizon hidle => exact absurd hle hold
      | rows hphase => exact absurd hle hold
      | send hphase =>
        have hf := h.live.sending _ _ _ (by rw [ht]; exact hphase)
        have heq := hf.first he hcovers (by rw [ht]; exact not_le.mp hold) hle
        rw [heq, sentRow, hphase]
        exact List.mem_singleton_self _
      | done hphase => exact absurd hle hold
      | fail => exact absurd hle hold
  · have hrv := h.lastRV
    generalize ht : c.stream = t at hread hrv
    cases hread with
    | horizon hidle => exact hrv
    | rows hphase => exact hrv
    | @send m n e rest hphase =>
      have hf := h.live.sending _ _ _ (by rw [ht]; exact hphase)
      have hvis := (mem_pending.mp (hf.sound e List.mem_cons_self)).1
      exact .inr (.max hrv ⟨e, hvis, rfl⟩)
    | done hphase => exact hrv
    | fail => exact hrv

theorem Safe.given_of_caughtUp {w : Request δ} {limit : ℕ} {c : Client δ} (h : Safe w limit c) (hstill : Still c.store)
    (hpending : w.pending c.store.log c.store.log.horizon c.stream.cursor = []) {e : Entry δ}
    (he : e ∈ c.store.log.visible) (hcovers : w.covers e.key) : e ∈ c.given := by
  refine h.seen e he hcovers (not_lt.mp fun hlt => ?_)
  have hmem := mem_pending.mpr ⟨he, hstill.lt_horizon he, hlt, hcovers⟩
  rw [hpending] at hmem
  cases hmem

theorem Safe.bookmarked {w : Request δ} {limit : ℕ} {c : Client δ} (h : Safe w limit c) (hstill : Still c.store)
    (hpending : w.pending c.store.log c.store.log.horizon c.stream.cursor = []) {rv : ℕ} (hrv : Anchored c.store rv) :
    Safe w limit (c.bookmarked rv) := by
  have hlive : Live w limit c.start ⟨c.store.log, c.stream.bookmark rv⟩ := by
    obtain ⟨rows, hrows⟩ := h.live.emitted
    exact ⟨⟨rows, hrows.ascending, hrows.mem, hrows.result⟩, h.live.start_le, h.live.settled, h.live.polled,
      h.live.sending⟩
  have hlast : Anchored c.store (c.stream.bookmark rv).lastRV := .max h.lastRV hrv
  refine ⟨h.versioned, hlive, h.origin, h.seen, .inr hlast, h.progress, ?_⟩
  intro r g hr
  cases hr
  exact hstill.resumable hlast fun e he hcovers => h.given_of_caughtUp hstill hpending he hcovers

theorem Safe.initialList {w : Request δ} {limit : ℕ} {c : Client δ} (h : Safe w limit c) {startRV : ℕ}
    (hstart : startRV = 0 ∨ ∃ g, c.advertised = some (startRV, g)) :
    Safe w limit { c with
      stream := ⟨initialCursor c.store.log, initialVersion w c.store startRV, [], .idle⟩,
      start := initialCursor c.store.log, given := c.given ++ c.store.log.visible, ending := true } := by
  have horigin : initialCursor c.store.log = toLex (0, 0) ∨
      (ofLex (initialCursor c.store.log)).1 < c.store.log.horizon := by
    rcases lastRow_cases (c.store.log.visible.filter (·.commitXid < c.store.log.horizon)) with ⟨_, heq⟩ | ⟨r, hr, heq, _⟩
    · exact .inl heq
    · right
      rw [initialCursor, heq]
      exact of_decide_eq_true (List.mem_filter.mp hr).2
  have hanchor : startRV = 0 ∨ Anchored c.store startRV := by
    refine hstart.imp_right ?_
    rintro ⟨g, hg⟩
    obtain ⟨e, he, hrv, _⟩ := h.advertised startRV g hg
    exact ⟨e, he, hrv⟩
  refine ⟨h.versioned, start_live w limit c.store.log _ _, horigin, ?_, ?_, h.progress, h.advertised⟩
  · intro e he _ _
    exact List.mem_append_right _ he
  · rcases maxVersion_objects (S := c.store) (p := fun o => w.covers o.key ∧ o.data.isSome) with hzero | hobjects
    · refine hanchor.imp ?_ ?_ <;> intro hrv
      · rw [initialVersion, hzero, hrv]
        rfl
      · rw [initialVersion, hzero, max_eq_left (Nat.zero_le _)]
        exact hrv
    · exact .inr (.max hanchor hobjects)

theorem Safe.resume {w : Request δ} {limit : ℕ} {c : Client δ} (h : Safe w limit c) {r : ℕ} {g : List (Entry δ)}
    (hr : c.advertised = some (r, g)) :
    Safe w limit { c with
      stream := openWatch c.store.log r, start := (openWatch c.store.log r).cursor, given := g, ending := false } := by
  obtain ⟨e, he, rfl, hx, hall⟩ := h.advertised r g hr
  have hcursor := h.versioned.openWatch_cursor he
  refine ⟨h.versioned, start_live w limit c.store.log _ _, ?_, ?_, .inr ⟨e, he, rfl⟩, h.progress, h.advertised⟩
  · right
    change (ofLex (openWatch c.store.log e.resourceVersion).cursor).1 < _
    rw [hcursor]
    exact hx
  · intro e' he' hcovers hle
    change pos e' ≤ (openWatch c.store.log e.resourceVersion).cursor at hle
    rw [hcursor] at hle
    exact hall e' he' hcovers hle

theorem Safe.step {w : Request δ} {limit : ℕ} {c c' : Client δ} (h : Safe w limit c)
    (hstep : Client.Step (Calm w) w limit c c') : Safe w limit c' := by
  cases hstep with
  | write hstore => exact h.write hstore
  | read hopen hread => exact h.read hread
  | listObjects => exact ⟨h.versioned, h.live, h.origin, h.seen, h.lastRV, h.progress, h.advertised⟩
  | @listVersion rows hlisting hok =>
    obtain ⟨hstill, heq⟩ := hok
    have hrows : rows = c.store.log.visible := Option.some.inj (hlisting.symm.trans heq)
    refine ⟨h.versioned, h.live, h.origin, ?_, h.lastRV, h.progress, ?_⟩
    · exact fun e he hcovers hle => List.mem_append_left _ (h.seen e he hcovers hle)
    · intro r g hr
      cases hr
      exact hstill.resumable (hstill.current h.versioned) fun e he _ => List.mem_append_right _ (hrows ▸ he)
  | initialList startRV hstart => exact h.initialList hstart
  | initialEnd hend hok =>
    have hb := h.bookmarked hok.1 hok.2 (hok.1.committedMax h.versioned).1
    exact ⟨hb.versioned, hb.live, hb.origin, hb.seen, hb.lastRV, hb.progress, hb.advertised⟩
  | periodic hopen hidle hlt hok => exact h.bookmarked hok.1 hok.2 (hok.1.committedMax h.versioned).1
  | request hok =>
    refine ⟨h.versioned, h.live, h.origin, h.seen, h.lastRV, ?_, h.advertised⟩
    intro v hv
    cases hv
    exact Still.current hok h.versioned
  | @progress rv hrv hopen hidle hok =>
    have hb := h.bookmarked hok.1 hok.2 (h.progress rv hrv)
    exact ⟨hb.versioned, hb.live, hb.origin, hb.seen, hb.lastRV, fun v hv => (nomatch hv), hb.advertised⟩
  | resume hr => exact h.resume hr

theorem Safe.reaches {w : Request δ} {limit : ℕ} {c c' : Client δ} (h : Safe w limit c)
    (hreach : Client.Reaches (Calm w) w limit c c') : Safe w limit c' := by
  induction hreach with
  | refl => exact h
  | tail _ hstep ih => exact ih.step hstep

theorem resume_complete (w : Request δ) (limit : ℕ) (S : Store δ) (hS : Versioned S) (c : Client δ)
    (hreach : Client.Reaches (Calm w) w limit (.initial S) c) (e : Entry δ) (he : e ∈ c.store.log.visible)
    (hcovers : w.covers e.key) (hunseen : e ∉ c.given) (hfinished : ∀ x < e.commitXid, ¬ c.store.log.Running x)
    (k : ℕ) (hk : w.backlog ⟨c.store.log, c.stream⟩ e ≤ k * limit) :
    (∃ b, Polls w limit k ⟨c.store.log, c.stream⟩ b) ∧
      ∀ b, Polls w limit k ⟨c.store.log, c.stream⟩ b → ∃ sent, Emitted w c.start b sent ∧ e ∈ sent := by
  have hsafe := (initial_safe w limit hS).reaches hreach
  refine ⟨exists_polls w limit k _, fun b hpolls => ?_⟩
  have hx : e.commitXid < c.store.log.horizon :=
    Log.lt_horizon_of_finished (Log.mem_visible.mp he).2 hfinished
  have hafter : c.stream.cursor < pos e := not_le.mp fun hle => hunseen (hsafe.seen e he hcovers hle)
  obtain ⟨sent, hsent⟩ := (hsafe.live.reaches hpolls.reaches).emitted
  have hle := hsafe.live.polls he hcovers hx hk hpolls
  refine ⟨sent, hsent, (hsent.mem e).mpr ⟨(Reaches.grows hpolls.reaches).visible he, hcovers, ?_, hle⟩⟩
  exact lt_of_le_of_lt hsafe.live.start_le hafter

def firstRow : Entry ℕ := ⟨['/', 'a'], 2, .added, some 7, 0, 1, 0⟩

def secondRow : Entry ℕ := ⟨['/', 'b'], 3, .added, some 8, 1, 2, 0⟩

def firstOnly : Store ℕ :=
  (Store.empty.begin.insert firstRow rfl (by decide)).commit 0 rfl

-- listed at version 2, resumed from it, and then the second row is written
def resumedClient : Client ℕ where
  store := (firstOnly.begin.insert secondRow rfl (by decide)).commit 1 rfl
  given := [firstRow]
  stream := openWatch firstOnly.log 2
  start := toLex (0, 1)
  ending := false
  listing := none
  progress := none
  advertised := some (2, [firstRow])

theorem resumedClient_reached : Client.Reaches (Calm everything) everything 500 (.initial firstOnly) resumedClient := by
  have hstill : Still firstOnly := by
    refine ⟨fun x hrun => ?_, by decide⟩
    have hx : x < 1 := (List.getElem?_eq_some_iff.mp hrun).1
    obtain rfl : x = 0 := by omega
    cases hrun
  have hinsert : firstOnly.begin.Step (firstOnly.begin.insert secondRow rfl (by decide)) :=
    .insert _ _ _ _ (by decide) (by decide)
  have hcommit : (firstOnly.begin.insert secondRow rfl (by decide)).Step resumedClient.store :=
    .commit (firstOnly.begin.insert secondRow rfl (by decide)) 1 rfl
  refine .head (.listObjects _) (.head (.listVersion _ rfl ⟨hstill, rfl⟩) (.head (.resume _ rfl) ?_))
  exact .head (.write _ (.begin _)) (.head (.write _ hinsert) (.single (.write _ hcommit)))

theorem resume_complete_secondRow :
    (∃ b, Polls everything 500 1 ⟨resumedClient.store.log, resumedClient.stream⟩ b) ∧
      ∀ b, Polls everything 500 1 ⟨resumedClient.store.log, resumedClient.stream⟩ b →
        ∃ sent, Emitted everything resumedClient.start b sent ∧ secondRow ∈ sent := by
  have hversioned : Versioned firstOnly := ⟨by decide, by decide⟩
  exact resume_complete everything 500 firstOnly hversioned resumedClient resumedClient_reached secondRow (by decide)
    (by decide) (by decide) (by decide) 1 (by decide)

-- the transaction with the smaller number is open while the list is read
theorem openEarlier_running : (Store.empty.begin.begin : Store ℕ).log.Running edgeAdded.commitXid := rfl

theorem openEarlier_drawn : (Store.empty.begin.begin : Store ℕ).log.drawn < edgeAdded.id := by decide

theorem openEarlier_open :
    (Store.empty.begin.begin.insert edgeAdded openEarlier_running openEarlier_drawn).log.Running 1 := rfl

def openEarlier : Store ℕ :=
  (Store.empty.begin.begin.insert edgeAdded openEarlier_running openEarlier_drawn).commit 1 openEarlier_open

def skippedClient : Client ℕ where
  store := (openEarlier.insert coreAdded rfl (by decide)).commit 0 rfl
  given := [edgeAdded]
  stream := openWatch openEarlier.log 2
  start := toLex (1, 1)
  ending := false
  listing := none
  progress := none
  advertised := some (2, [edgeAdded])

theorem skippedClient_reached :
    Client.Reaches (fun _ _ => True) everything 500 (.initial openEarlier) skippedClient := by
  have hinsert : openEarlier.Step (openEarlier.insert coreAdded rfl (by decide)) :=
    .insert _ _ _ _ (by decide) (by decide)
  have hcommit : (openEarlier.insert coreAdded rfl (by decide)).Step skippedClient.store :=
    .commit (openEarlier.insert coreAdded rfl (by decide)) 0 rfl
  refine .head (.listObjects _) (.head (.listVersion _ rfl trivial) (.head (.resume _ rfl) ?_))
  exact .head (.write _ hinsert) (.single (.write _ hcommit))

/-- The list's version is that of the larger transaction; the smaller one commits after the list and its row lies below
the cursor of a watch started at that version. -/
theorem resume_skips_open :
    Client.Reaches (fun _ _ => True) everything 500 (.initial openEarlier) skippedClient ∧
      coreAdded ∈ skippedClient.store.log.visible ∧ everything.covers coreAdded.key ∧
      coreAdded ∉ skippedClient.given ∧ (∀ x < 2, ¬ skippedClient.store.log.Running x) ∧
      ∀ b sent, Emitted everything skippedClient.start b sent → coreAdded ∉ sent := by
  refine ⟨skippedClient_reached, by decide, by decide, by decide, by decide, fun b sent hsent hmem => ?_⟩
  exact absurd ((hsent.mem coreAdded).mp hmem).2.2.1 (by decide)

end Ipam.Watch
