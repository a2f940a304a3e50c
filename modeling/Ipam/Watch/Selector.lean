import Ipam.Watch.Objects

namespace Ipam.Watch

open Changefeed

variable {δ : Type}

def Valid (objects : List (Stored δ)) (e : Entry δ) : Prop :=
  e.data.isSome ∧
    match e.eventType with
    | .added => ∀ o ∈ objects, o.key ≠ e.key
    | .modified => ∃ o ∈ objects, o.key = e.key
    | .deleted => ∃ o ∈ objects, o.key = e.key ∧ o.data = e.data

theorem Store.begin_running (S : Store δ) {x : ℕ} (hx : x = S.log.fates.length) : S.begin.log.Running x := by
  subst hx
  exact List.getElem?_concat_length

def Store.serial (S : Store δ) (e : Entry δ) (hx : e.commitXid = S.log.fates.length) (hid : S.log.drawn < e.id) :
    Store δ :=
  (S.begin.insert e (S.begin_running hx) hid).commit e.commitXid (S.begin_running hx)

structure Scene (δ : Type) where
  store : Store δ
  stream : Stream δ

inductive Scene.Step (ok : List (Stored δ) → Entry δ → Prop) (w : Request δ) (limit : ℕ) : Scene δ → Scene δ → Prop
  | change (S : Store δ) (s : Stream δ) (e : Entry δ) (hx : e.commitXid = S.log.fates.length)
      (hid : S.log.drawn < e.id) (hvalid : Valid S.objects e) (hok : ok S.objects e) :
      Step ok w limit ⟨S, s⟩ ⟨S.serial e hx hid, s⟩
  | read (S : Store δ) {s s' : Stream δ} (h : Reads w limit S.log s s') : Step ok w limit ⟨S, s⟩ ⟨S, s'⟩

inductive History : Store δ → Prop
  | empty : History Store.empty
  | change {S : Store δ} (h : History S) (e : Entry δ) (hx : e.commitXid = S.log.fates.length)
      (hid : S.log.drawn < e.id) (hvalid : Valid S.objects e) : History (S.serial e hx hid)

def receive (view : List (KeyText × δ)) (ev : Event δ) : List (KeyText × δ) :=
  view.filter (·.1 ≠ ev.key) ++ if ev.type = .deleted then [] else [(ev.key, ev.object)]

def view (events : List (Event δ)) : List (KeyText × δ) :=
  events.foldl receive []

def objectsAt (L : Changelog δ) (cursor : ℕ ×ₗ ℕ) : List (Stored δ) :=
  (L.visible.filter (pos · ≤ cursor)).foldl put []

def Tracks (w : Request δ) (objects : List (Stored δ)) (v : List (KeyText × δ)) : Prop :=
  ∀ k d, (k, d) ∈ v ↔ ∃ o ∈ objects, o.key = k ∧ o.data = some d ∧ w.covers k ∧ w.matches d

def Stays (w : Request δ) (objects : List (Stored δ)) (e : Entry δ) : Prop :=
  e.eventType = .modified → w.covers e.key → ∀ o ∈ objects, o.key = e.key →
    ∀ d d', o.data = some d → e.data = some d' → w.matches d → w.matches d'

theorem mem_put {objects : List (Stored δ)} {e : Entry δ} {o : Stored δ} :
    o ∈ put objects e ↔ (o ∈ objects ∧ o.key ≠ e.key) ∨ (e.eventType ≠ .deleted ∧ o = e.stored) := by
  unfold put
  split <;> simp_all

theorem mem_receive {v : List (KeyText × δ)} {ev : Event δ} {k : KeyText} {d : δ} :
    (k, d) ∈ receive v ev ↔ ((k, d) ∈ v ∧ k ≠ ev.key) ∨ (ev.type ≠ .deleted ∧ k = ev.key ∧ d = ev.object) := by
  unfold receive
  split <;> simp_all

theorem put_keys_nodup {objects : List (Stored δ)} (h : (objects.map Stored.key).Nodup) (e : Entry δ) :
    ((put objects e).map Stored.key).Nodup := by
  have hfilter : ((objects.filter (·.key ≠ e.key)).map Stored.key).Nodup :=
    h.sublist (List.filter_sublist.map _)
  unfold put
  rw [List.map_append]
  refine List.nodup_append.mpr ⟨hfilter, ?_, ?_⟩
  · split <;> simp
  · intro a ha b hb hab
    obtain ⟨o, ho, rfl⟩ := List.mem_map.mp ha
    have hne : o.key ≠ e.key := of_decide_eq_true (List.mem_filter.mp ho).2
    split at hb
    · cases hb
    · rw [List.map_singleton, List.mem_singleton] at hb
      exact hne (hab.trans hb)

theorem eq_of_key {objects : List (Stored δ)} (h : (objects.map Stored.key).Nodup) {o o' : Stored δ}
    (ho : o ∈ objects) (ho' : o' ∈ objects) (hkey : o.key = o'.key) : o = o' :=
  List.inj_on_of_nodup_map h ho ho' hkey

theorem event_eq (w : Request δ) {e : Entry δ} {d : δ} (hd : e.data = some d) :
    w.event e = if w.matches d then some ⟨e.eventType, e.key, d, e.resourceVersion⟩ else none := by
  simp [Request.event, toWatchEvent, hd, Option.filter]

theorem Tracks.put_aside {w : Request δ} {objects : List (Stored δ)} {v : List (KeyText × δ)} (h : Tracks w objects v)
    {e : Entry δ} (hcovers : w.covers e.key = false) : Tracks w (put objects e) v := by
  intro k d
  rw [h k d]
  constructor
  · rintro ⟨o, ho, rfl, hd, hc, hm⟩
    refine ⟨o, mem_put.mpr (.inl ⟨ho, fun heq => ?_⟩), rfl, hd, hc, hm⟩
    rw [heq, hcovers] at hc
    cases hc
  · rintro ⟨o, ho, rfl, hd, hc, hm⟩
    rcases mem_put.mp ho with ⟨ho, _⟩ | ⟨_, rfl⟩
    · exact ⟨o, ho, rfl, hd, hc, hm⟩
    · rw [Entry.stored, hcovers] at hc
      cases hc

theorem Tracks.put_shown {w : Request δ} {objects : List (Stored δ)} {v : List (KeyText × δ)} (h : Tracks w objects v)
    {e : Entry δ} {d₀ : δ} (hcovers : w.covers e.key) (hd₀ : e.data = some d₀) (hmatch : w.matches d₀) :
    Tracks w (put objects e) (receive v ⟨e.eventType, e.key, d₀, e.resourceVersion⟩) := by
  intro k d
  rw [mem_receive, h k d]
  constructor
  · rintro (⟨⟨o, ho, rfl, hd, hc, hm⟩, hne⟩ | ⟨htype, rfl, rfl⟩)
    · exact ⟨o, mem_put.mpr (.inl ⟨ho, hne⟩), rfl, hd, hc, hm⟩
    · exact ⟨e.stored, mem_put.mpr (.inr ⟨htype, rfl⟩), rfl, hd₀, hcovers, hmatch⟩
  · rintro ⟨o, ho, rfl, hd, hc, hm⟩
    rcases mem_put.mp ho with ⟨ho, hne⟩ | ⟨htype, rfl⟩
    · exact .inl ⟨⟨o, ho, rfl, hd, hc, hm⟩, hne⟩
    · exact .inr ⟨htype, rfl, Option.some.inj (hd.symm.trans hd₀)⟩

theorem Tracks.put_skipped {w : Request δ} {objects : List (Stored δ)} {v : List (KeyText × δ)}
    (h : Tracks w objects v) (hkeys : (objects.map Stored.key).Nodup) {e : Entry δ} {d₀ : δ}
    (hcovers : w.covers e.key) (hd₀ : e.data = some d₀) (hmatch : w.matches d₀ = false) (hvalid : Valid objects e)
    (hstays : Stays w objects e) : Tracks w (put objects e) v := by
  have hout : ∀ o ∈ objects, o.key = e.key → ∀ d, o.data = some d → w.matches d = false := by
    intro o ho hkey d hd
    obtain ⟨_, hcase⟩ := hvalid
    cases htype : e.eventType with
    | added =>
      simp only [htype] at hcase
      exact absurd hkey (hcase o ho)
    | modified =>
      by_contra hm
      have hm' : w.matches d := by simpa using hm
      have hmatch' := hstays htype hcovers o ho hkey d d₀ hd hd₀ hm'
      rw [hmatch] at hmatch'
      cases hmatch'
    | deleted =>
      simp only [htype] at hcase
      obtain ⟨o', ho', hkey', hdata⟩ := hcase
      have heq := eq_of_key hkeys ho ho' (hkey.trans hkey'.symm)
      rw [heq, hdata, hd₀] at hd
      exact Option.some.inj hd ▸ hmatch
  intro k d
  rw [h k d]
  constructor
  · rintro ⟨o, ho, rfl, hd, hc, hm⟩
    refine ⟨o, mem_put.mpr (.inl ⟨ho, fun heq => ?_⟩), rfl, hd, hc, hm⟩
    rw [hout o ho heq d hd] at hm
    cases hm
  · rintro ⟨o, ho, rfl, hd, hc, hm⟩
    rcases mem_put.mp ho with ⟨ho, _⟩ | ⟨_, rfl⟩
    · exact ⟨o, ho, rfl, hd, hc, hm⟩
    · have heq : d = d₀ := Option.some.inj (hd.symm.trans hd₀)
      rw [heq, hmatch] at hm
      cases hm

def Chain (ok : List (Stored δ) → Entry δ → Prop) : List (Stored δ) → List (Entry δ) → Prop
  | _, [] => True
  | objects, e :: es => ok objects e ∧ Chain ok (put objects e) es

theorem Chain.concat {ok : List (Stored δ) → Entry δ → Prop} {objects : List (Stored δ)} {es : List (Entry δ)}
    (h : Chain ok objects es) {e : Entry δ} (hok : ok (es.foldl put objects) e) : Chain ok objects (es ++ [e]) := by
  induction es generalizing objects with
  | nil => exact ⟨hok, trivial⟩
  | cons r es ih => exact ⟨h.1, ih h.2 hok⟩

theorem Chain.filter_le {ok : List (Stored δ) → Entry δ → Prop} {objects : List (Stored δ)} {es : List (Entry δ)}
    (h : Chain ok objects es) (hasc : es.Pairwise fun a b => pos a < pos b) (c : ℕ ×ₗ ℕ) :
    Chain ok objects (es.filter (pos · ≤ c)) := by
  induction es generalizing objects with
  | nil => exact h
  | cons e es ih =>
    obtain ⟨hfirst, hasc⟩ := List.pairwise_cons.mp hasc
    by_cases hle : pos e ≤ c
    · have hcons : (e :: es).filter (pos · ≤ c) = e :: es.filter (pos · ≤ c) :=
        List.filter_cons_of_pos (by simpa using hle)
      rw [hcons]
      exact ⟨h.1, ih h.2 hasc⟩
    · have hnil : (e :: es).filter (pos · ≤ c) = [] := by
        refine List.filter_eq_nil_iff.mpr fun r hr hrc => hle ?_
        rcases List.mem_cons.mp hr with rfl | hr
        · exact of_decide_eq_true hrc
        · exact (hfirst r hr).le.trans (of_decide_eq_true hrc)
      rw [hnil]
      trivial

theorem Tracks.foldl {w : Request δ} {es : List (Entry δ)} :
    ∀ {objects : List (Stored δ)} {v : List (KeyText × δ)}, Tracks w objects v →
      (objects.map Stored.key).Nodup → Chain (fun o e => Valid o e ∧ Stays w o e) objects es →
      Tracks w (es.foldl put objects) (((es.filter fun e => w.covers e.key).filterMap w.event).foldl receive v) := by
  induction es with
  | nil => exact fun h _ _ => h
  | cons e es ih =>
    rintro objects v h hkeys ⟨⟨hvalid, hstays⟩, hchain⟩
    have hkeys' := put_keys_nodup hkeys e
    obtain ⟨d₀, hd₀⟩ := Option.isSome_iff_exists.mp hvalid.1
    rw [List.foldl_cons]
    cases hcovers : w.covers e.key with
    | false =>
      rw [List.filter_cons_of_neg (by simp [hcovers])]
      exact ih (h.put_aside hcovers) hkeys' hchain
    | true =>
      rw [List.filter_cons_of_pos (by simp [hcovers])]
      have hevent := event_eq w hd₀
      cases hmatch : w.matches d₀ with
      | false =>
        rw [List.filterMap_cons_none (by simp [hevent, hmatch])]
        exact ih (h.put_skipped hkeys hcovers hd₀ hmatch hvalid hstays) hkeys' hchain
      | true =>
        rw [hmatch, if_pos rfl] at hevent
        rw [List.filterMap_cons_some hevent, List.foldl_cons]
        exact ih (h.put_shown hcovers hd₀ hmatch) hkeys' hchain

theorem foldl_receive_added {events : List (Event δ)} (hadded : ∀ ev ∈ events, ev.type = .added)
    (hkeys : (events.map Event.key).Nodup) {v : List (KeyText × δ)}
    (hapart : ∀ ev ∈ events, ∀ p ∈ v, p.1 ≠ ev.key) :
    events.foldl receive v = v ++ events.map fun ev => (ev.key, ev.object) := by
  induction events generalizing v with
  | nil => simp
  | cons ev events ih =>
    obtain ⟨hfirst, hkeys⟩ := List.nodup_cons.mp hkeys
    have hreceive : receive v ev = v ++ [(ev.key, ev.object)] := by
      rw [receive, hadded ev List.mem_cons_self, if_neg (by decide)]
      rw [List.filter_eq_self.mpr fun p hp => decide_eq_true (hapart ev List.mem_cons_self p hp)]
    rw [List.foldl_cons, hreceive, ih (fun e he => hadded e (List.mem_cons_of_mem _ he)) hkeys]
    · simp
    · intro e he p hp
      rcases List.mem_append.mp hp with hp | hp
      · exact hapart e (List.mem_cons_of_mem _ he) p hp
      · rw [List.mem_singleton.mp hp]
        intro heq
        exact hfirst (List.mem_map.mpr ⟨e, he, heq.symm⟩)

theorem added_keys_sublist (w : Request δ) (objects : List (Stored δ)) :
    ((objects.filterMap fun o => w.event ⟨o.key, o.resourceVersion, .added, o.data, 0, 0, 0⟩).map Event.key).Sublist
      (objects.map Stored.key) := by
  induction objects with
  | nil => exact List.Sublist.refl _
  | cons o rest ih =>
    rw [List.map_cons, List.filterMap_cons]
    split
    · exact ih.cons _
    · rename_i ev hev
      have hkey : ev.key = o.key := by
        cases hd : o.data with
        | none => simp [Request.event, toWatchEvent, hd] at hev
        | some d =>
          rw [hd, event_eq w rfl] at hev
          split at hev
          · rw [← Option.some.inj hev]
          · cases hev
      rw [List.map_cons, hkey]
      exact ih.cons_cons _

theorem sendInitialEventList_tracks (w : Request δ) (S : Store δ) (hkeys : (S.objects.map Stored.key).Nodup) :
    Tracks w S.objects (view (sendInitialEventList w S)) := by
  have hsort := List.perm_insertionSort (fun a b : Stored δ => a.resourceVersion ≤ b.resourceVersion)
    (S.objects.filter fun o => w.covers o.key)
  have hmem : ∀ ev, ev ∈ sendInitialEventList w S ↔ ∃ o ∈ S.objects, w.covers o.key ∧
      ∃ d, o.data = some d ∧ w.matches d ∧ ev = ⟨.added, o.key, d, o.resourceVersion⟩ := by
    intro ev
    rw [sendInitialEventList, List.mem_filterMap]
    constructor
    · rintro ⟨o, ho, hev⟩
      obtain ⟨ho, hc⟩ := List.mem_filter.mp (hsort.mem_iff.mp ho)
      cases hd : o.data with
      | none => simp [Request.event, toWatchEvent, hd] at hev
      | some d =>
        rw [hd, event_eq w rfl] at hev
        split at hev
        · rename_i hm
          exact ⟨o, ho, hc, d, hd, hm, (Option.some.inj hev).symm⟩
        · cases hev
    · rintro ⟨o, ho, hc, d, hd, hm, rfl⟩
      refine ⟨o, hsort.mem_iff.mpr (List.mem_filter.mpr ⟨ho, hc⟩), ?_⟩
      rw [hd, event_eq w rfl, if_pos hm]
  have hnodup : ((sendInitialEventList w S).map Event.key).Nodup := by
    have hsorted : (((S.objects.filter fun o => w.covers o.key).insertionSort
        fun a b => a.resourceVersion ≤ b.resourceVersion).map Stored.key).Nodup :=
      (hsort.map _).nodup_iff.mpr (hkeys.sublist (List.filter_sublist.map _))
    exact hsorted.sublist (added_keys_sublist w _)
  rw [view, foldl_receive_added _ hnodup (by simp), List.nil_append]
  · intro k d
    rw [List.mem_map]
    constructor
    · rintro ⟨ev, hev, heq⟩
      obtain ⟨o, ho, hc, d', hd, hm, rfl⟩ := (hmem ev).mp hev
      cases heq
      exact ⟨o, ho, rfl, hd, hc, hm⟩
    · rintro ⟨o, ho, rfl, hd, hc, hm⟩
      exact ⟨⟨.added, o.key, d, o.resourceVersion⟩, (hmem _).mpr ⟨o, ho, hc, d, hd, hm, rfl⟩, rfl⟩
  · intro ev hev
    obtain ⟨o, ho, hc, d', hd, hm, rfl⟩ := (hmem ev).mp hev
    rfl

structure Serial (S : Store δ) : Prop where
  objects : S.objects = S.log.rows.foldl put []
  keys : (S.objects.map Stored.key).Nodup
  ascending : S.log.rows.Pairwise fun a b => pos a < pos b
  committed : ∀ x < S.log.fates.length, S.log.Committed x

theorem Store.serial_objects (S : Store δ) (e : Entry δ) (hx : e.commitXid = S.log.fates.length)
    (hid : S.log.drawn < e.id) : (S.serial e hx hid).objects = put S.objects e := by
  have hold : ∀ y ∈ S.commits, (S.log.rows ++ [e]).filter (·.commitXid = y) = S.rowsOf y := by
    intro y hy
    have hlt : y < S.log.fates.length := (List.getElem?_eq_some_iff.mp ((S.commits_iff y).mp hy)).1
    have hne : e.commitXid ≠ y := by omega
    rw [List.filter_append, List.filter_singleton, decide_eq_false hne, cond_false, List.append_nil]
    rfl
  have hnew : (S.log.rows ++ [e]).filter (·.commitXid = e.commitXid) = [e] := by
    rw [List.filter_append, List.filter_singleton, decide_eq_true rfl, cond_true]
    rw [List.filter_eq_nil_iff.mpr, List.nil_append]
    intro r hr heq
    have hlt : r.commitXid < S.log.fates.length := S.log.began r hr
    have heq' : r.commitXid = e.commitXid := of_decide_eq_true heq
    omega
  change ((S.commits ++ [e.commitXid]).flatMap fun y => (S.log.rows ++ [e]).filter (·.commitXid = y)).foldl put [] = _
  rw [List.flatMap_append, List.flatMap_singleton, hnew, List.foldl_append, Store.objects,
    List.flatMap_congr hold]
  rfl

theorem Serial.step {S : Store δ} (h : Serial S) (e : Entry δ) (hx : e.commitXid = S.log.fates.length)
    (hid : S.log.drawn < e.id) : Serial (S.serial e hx hid) := by
  refine ⟨?_, ?_, ?_, ?_⟩
  · rw [S.serial_objects, h.objects]
    exact (List.foldl_concat put [] e S.log.rows).symm
  · rw [S.serial_objects]
    exact put_keys_nodup h.keys e
  · refine List.pairwise_append.mpr ⟨h.ascending, List.pairwise_singleton _ _, ?_⟩
    intro r hr s hs
    rw [List.mem_singleton.mp hs]
    refine pos_lt_iff.mpr (.inl ?_)
    have hlt : r.commitXid < S.log.fates.length := S.log.began r hr
    change r.commitXid < e.commitXid
    omega
  · intro x hlt
    change ((S.log.fates ++ [Fate.running]).set e.commitXid .committed)[x]? = some .committed
    have hlt' : x < ((S.log.fates ++ [Fate.running]).set e.commitXid .committed).length := hlt
    rw [List.length_set, List.length_append, List.length_singleton] at hlt'
    by_cases hxe : e.commitXid = x
    · rw [hxe, List.getElem?_set_self]
      rw [List.length_append, List.length_singleton]
      exact hlt'
    · rw [List.getElem?_set_ne hxe, List.getElem?_append_left (by omega)]
      exact h.committed x (by omega)

theorem Serial.visible {S : Store δ} (h : Serial S) : S.log.visible = S.log.rows :=
  List.filter_eq_self.mpr fun r hr => decide_eq_true (h.committed _ (S.log.began r hr))

theorem Serial.lt_horizon {S : Store δ} (h : Serial S) {x : ℕ} (hx : x < S.log.fates.length) : x < S.log.horizon := by
  refine Log.lt_horizon_iff.mpr ⟨hx, fun y hy hrun => ?_⟩
  have hc := h.committed y (by omega)
  rw [Log.Committed, hrun] at hc
  cases hc

theorem History.serial {S : Store δ} (h : History S) : Serial S := by
  induction h with
  | empty => exact ⟨rfl, List.nodup_nil, List.Pairwise.nil, fun x hx => absurd hx (Nat.not_lt_zero x)⟩
  | change _ e hx hid _ ih => exact ih.step e hx hid

theorem Store.serial_grows (S : Store δ) (e : Entry δ) (hx : e.commitXid = S.log.fates.length)
    (hid : S.log.drawn < e.id) : S.log.Grows (S.serial e hx hid).log :=
  ((Relation.ReflTransGen.single (.begin S.log)).tail (.insert S.log.begin e (S.begin_running hx) hid)).tail
    (.finish _ e.commitXid .committed (S.begin_running hx) (by decide))

structure Since (ok : List (Stored δ) → Entry δ → Prop) (w : Request δ) (limit : ℕ) (S₀ : Store δ) (rv : ℕ)
    (a : Scene δ) : Prop where
  serial : Serial a.store
  rows : ∃ later, a.store.log.rows = S₀.log.rows ++ later ∧
    Chain (fun o e => Valid o e ∧ ok o e) S₀.objects later ∧ a.store.objects = later.foldl put S₀.objects
  reaches : Reaches w limit (World.start S₀.log (initialCursor S₀.log) rv) ⟨a.store.log, a.stream⟩

theorem Since.step {ok : List (Stored δ) → Entry δ → Prop} {w : Request δ} {limit : ℕ} {S₀ : Store δ} {rv : ℕ}
    {a b : Scene δ} (h : Since ok w limit S₀ rv a) (hstep : Scene.Step ok w limit a b) :
    Since ok w limit S₀ rv b := by
  cases hstep with
  | change S s e hx hid hvalid hok =>
    obtain ⟨later, hrows, hchain, hobjects⟩ := h.rows
    have hrows' : S.log.rows = S₀.log.rows ++ later := hrows
    have hobjects' : S.objects = later.foldl put S₀.objects := hobjects
    refine ⟨h.serial.step e hx hid, ⟨later ++ [e], ?_, ?_, ?_⟩, ?_⟩
    · change S.log.rows ++ [e] = _
      rw [hrows', List.append_assoc]
    · refine hchain.concat ?_
      rw [← hobjects']
      exact ⟨hvalid, hok⟩
    · rw [S.serial_objects, hobjects', List.foldl_concat]
    · exact h.reaches.trans (reaches_of_grows (S.serial_grows e hx hid) s)
  | read S hread => exact ⟨h.serial, h.rows, h.reaches.tail (.read S.log hread)⟩

theorem Since.of_reaches {ok : List (Stored δ) → Entry δ → Prop} {w : Request δ} {limit : ℕ} {S₀ : Store δ} {rv : ℕ}
    (hS₀ : Serial S₀) {a : Scene δ}
    (h : Relation.ReflTransGen (Scene.Step ok w limit) ⟨S₀, ⟨initialCursor S₀.log, rv, [], .idle⟩⟩ a) :
    Since ok w limit S₀ rv a := by
  induction h with
  | refl => exact ⟨hS₀, ⟨[], (List.append_nil _).symm, trivial, rfl⟩, .refl⟩
  | tail _ hstep ih => exact ih.step hstep

theorem selectorWatch_tracks (w : Request δ) (limit : ℕ) (S₀ : Store δ) (hS₀ : History S₀) (rv : ℕ) (a : Scene δ)
    (hreach : Relation.ReflTransGen (Scene.Step (Stays w) w limit) ⟨S₀, ⟨initialCursor S₀.log, rv, [], .idle⟩⟩ a) :
    Tracks w (objectsAt a.store.log a.stream.cursor) (view (sendInitialEventList w S₀ ++ a.stream.result)) := by
  have hserial₀ := hS₀.serial
  have hsince := Since.of_reaches hserial₀ hreach
  obtain ⟨later, hrows, hchain, _⟩ := hsince.rows
  have hlive := (start_live w limit S₀.log (initialCursor S₀.log) rv).reaches hsince.reaches
  have hgrows : S₀.log.Grows a.store.log := Reaches.grows hsince.reaches
  obtain ⟨sent, hsent⟩ := hlive.emitted
  have hasc := hsince.serial.ascending
  have hvisible := hsince.serial.visible
  rw [hrows] at hasc
  obtain ⟨_, hascLater, hbetween⟩ := List.pairwise_append.mp hasc
  -- the listed rows lie at or below the start, the later ones above it
  have hlisted : ∀ e ∈ S₀.log.rows, pos e ≤ initialCursor S₀.log := by
    intro e he
    refine not_lt.mp fun hlt => ?_
    have hvis : e ∈ S₀.log.visible := hserial₀.visible ▸ he
    have hle := (initialCursor_lt_iff .refl hvis).mp hlt
    exact absurd (hserial₀.lt_horizon (S₀.log.began e he)) (not_lt.mpr hle)
  have hlater : ∀ e ∈ later, initialCursor S₀.log < pos e := by
    intro e he
    have hvis : e ∈ a.store.log.visible := by
      rw [hvisible, hrows]
      exact List.mem_append_right _ he
    rcases lastRow_cases (S₀.log.visible.filter (·.commitXid < S₀.log.horizon)) with ⟨_, heq⟩ | ⟨r, hr, heq, _⟩
    · rw [initialCursor, heq]
      exact zero_lt_pos (Log.mem_visible.mp hvis).1
    · rw [initialCursor, heq]
      exact hbetween r (Log.mem_visible.mp (List.mem_filter.mp hr).1).1 e he
  have hfirst : S₀.log.rows.filter (pos · ≤ a.stream.cursor) = S₀.log.rows :=
    List.filter_eq_self.mpr fun e he => decide_eq_true ((hlisted e he).trans hlive.start_le)
  have hobjects : objectsAt a.store.log a.stream.cursor =
      (later.filter (pos · ≤ a.stream.cursor)).foldl put S₀.objects := by
    rw [objectsAt, hvisible, hrows, List.filter_append, hfirst, List.foldl_append, ← hserial₀.objects]
  have hsentEq : sent = (later.filter (pos · ≤ a.stream.cursor)).filter fun e => w.covers e.key := by
    refine ascending_ext hsent.ascending ((hascLater.filter _).filter _) fun e => ?_
    rw [hsent.mem e, hvisible, hrows]
    simp only [List.mem_filter, List.mem_append, decide_eq_true_eq]
    constructor
    · rintro ⟨he | he, hcovers, hstart, hle⟩
      · exact absurd hstart (not_lt.mpr (hlisted e he))
      · exact ⟨⟨he, hle⟩, hcovers⟩
    · rintro ⟨⟨he, hle⟩, hcovers⟩
      exact ⟨.inr he, hcovers, hlater e he, hle⟩
  have hview : view (sendInitialEventList w S₀ ++ a.stream.result) =
      a.stream.result.foldl receive (view (sendInitialEventList w S₀)) := List.foldl_append
  have hresult : a.stream.result = sent.filterMap w.event := hsent.result
  rw [hobjects, hview, hresult, hsentEq]
  exact (sendInitialEventList_tracks w S₀ hserial₀.keys).foldl hserial₀.keys (hchain.filter_le hascLater _)

def nonzero : Request ℕ := { key := ['/'], predicate := some (· ≠ 0) }

def poolRow (version data : ℕ) (type : EventType) (xid : ℕ) : Entry ℕ :=
  ⟨['/', 'a'], version, type, some data, xid, version, 0⟩

def onePool : Store ℕ :=
  Store.empty.serial (poolRow 1 7 .added 0) rfl (by decide)

theorem onePool_history : History onePool :=
  .change .empty _ _ _ ⟨rfl, fun _ ho => nomatch ho⟩

-- the pool's document is rewritten and the watch polls once
def rewritten (data : ℕ) : Scene ℕ :=
  ⟨onePool.serial (poolRow 2 data .modified 1) rfl (Nat.lt_succ_self 1),
    ⟨toLex (1, 2), 2, (nonzero.event (poolRow 2 data .modified 1)).toList, .sending 2 1 []⟩⟩

theorem rewritten_reached {ok : List (Stored ℕ) → Entry ℕ → Prop} {data : ℕ}
    (hok : ok onePool.objects (poolRow 2 data .modified 1)) :
    Relation.ReflTransGen (Scene.Step ok nonzero 500) ⟨onePool, ⟨initialCursor onePool.log, 1, [], .idle⟩⟩
      (rewritten data) := by
  have hcursor : initialCursor onePool.log = toLex (0, 1) := by decide
  have hvalid : Valid onePool.objects (poolRow 2 data .modified 1) :=
    ⟨rfl, ⟨['/', 'a'], 1, some 7⟩, List.mem_singleton_self _, rfl⟩
  rw [hcursor]
  have hphase : (⟨toLex (0, 1), 1, [], .sending 2 0 ((nonzero.pending (rewritten data).store.log 2
      (toLex (0, 1))).take 500)⟩ : Stream ℕ).phase = .sending 2 0 [poolRow 2 data .modified 1] := rfl
  refine .head (.change onePool _ (poolRow 2 data .modified 1) rfl (Nat.lt_succ_self 1) hvalid hok) ?_
  refine .head (.read _ (.horizon _ rfl)) (.head (.read _ (.rows _ rfl)) (.single (.read _ ?_)))
  exact .send _ hphase

theorem selectorWatch_tracks_rewritten :
    Tracks nonzero (objectsAt (rewritten 8).store.log (rewritten 8).stream.cursor)
      (view (sendInitialEventList nonzero onePool ++ (rewritten 8).stream.result)) := by
  refine selectorWatch_tracks nonzero 500 onePool onePool_history 1 (rewritten 8) (rewritten_reached ?_)
  intro _ _ o _ _ d d' _ hd' _
  cases hd'
  rfl

theorem selectorWatch_keeps_left : ∃ a : Scene ℕ,
    Relation.ReflTransGen (Scene.Step (fun _ _ => True) nonzero 500)
      ⟨onePool, ⟨initialCursor onePool.log, 1, [], .idle⟩⟩ a ∧
    ¬ Tracks nonzero (objectsAt a.store.log a.stream.cursor)
      (view (sendInitialEventList nonzero onePool ++ a.stream.result)) := by
  refine ⟨rewritten 0, rewritten_reached trivial, fun h => ?_⟩
  obtain ⟨o, ho, _, hd, _⟩ := (h ['/', 'a'] 7).mp (by decide)
  have hobjects : objectsAt (rewritten 0).store.log (rewritten 0).stream.cursor = [⟨['/', 'a'], 2, some 0⟩] := by
    decide
  rw [hobjects, List.mem_singleton] at ho
  rw [ho] at hd
  cases hd

end Ipam.Watch
