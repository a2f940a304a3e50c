import Ipam.Lib.Changefeed

/-!
The rows of `ipam_changelog`, the keys a watch covers and what it makes of a row. Key texts are lists of characters;
the data column is the document it decodes to, and none where it is NULL or does not decode.
-/

namespace Ipam.Watch

open Changefeed

abbrev KeyText := List Char

inductive EventType where
  | added
  | modified
  | deleted
  deriving DecidableEq, Repr

structure Entry (δ : Type) where
  key : KeyText
  resourceVersion : ℕ
  eventType : EventType
  data : Option δ
  commitXid : ℕ
  id : ℕ
  createdAt : ℕ
  deriving DecidableEq, Repr

instance (δ : Type) : Stamped (Entry δ) where
  xid := Entry.commitXid
  id := Entry.id

variable {δ : Type}

@[simp] theorem xid_eq (e : Entry δ) : xid e = e.commitXid := rfl

abbrev Changelog (δ : Type) := Log (Entry δ)

/-- SQL's `LIKE` with its default escape character. -/
def like : List Char → List Char → Bool
  | [], text => text.isEmpty
  | '%' :: pattern, text => text.tails.any (like pattern)
  | '_' :: pattern, _ :: text => like pattern text
  | '\\' :: c :: pattern, d :: text => c == d && like pattern text
  | c :: pattern, d :: text => c == d && like pattern text
  | _ :: _, [] => false

structure Request (δ : Type) where
  key : KeyText
  excludedKeyPrefixes : List KeyText := []
  -- none is the empty predicate; a predicate that fails on an object counts as one that does not match
  predicate : Option (δ → Bool) := none

def Request.keyPrefix (w : Request δ) : KeyText :=
  if w.key.getLast? = some '/' then w.key else w.key ++ ['/']

def Request.covers (w : Request δ) (key : KeyText) : Bool :=
  (key == w.key || like (w.keyPrefix ++ ['%']) key) && w.excludedKeyPrefixes.all fun p => !like (p ++ ['%']) key

structure Event (δ : Type) where
  type : EventType
  key : KeyText
  object : δ
  resourceVersion : ℕ
  deriving DecidableEq, Repr

def toWatchEvent (e : Entry δ) : Option (Event δ) :=
  e.data.map fun d => ⟨e.eventType, e.key, d, e.resourceVersion⟩

def Request.matches (w : Request δ) (d : δ) : Bool :=
  match w.predicate with
  | none => true
  | some p => p d

def Request.event (w : Request δ) (e : Entry δ) : Option (Event δ) :=
  (toWatchEvent e).filter fun ev => w.matches ev.object

theorem Request.event_of_empty {w : Request δ} (h : w.predicate = none) (e : Entry δ) :
    w.event e = toWatchEvent e := by
  unfold Request.event
  cases toWatchEvent e with
  | none => rfl
  | some ev => simp [Option.filter, Request.matches, h]

inductive Phase (δ : Type) where
  | idle
  | polled (horizon : ℕ)
  | sending (horizon n : ℕ) (rows : List (Entry δ))
  deriving DecidableEq, Repr

structure Stream (δ : Type) where
  -- lastXid and lastID
  cursor : ℕ ×ₗ ℕ
  lastRV : ℕ
  result : List (Event δ)
  phase : Phase δ

def Stream.advanceCursor (s : Stream δ) (e : Entry δ) : Stream δ :=
  { s with cursor := pos e, lastRV := max s.lastRV e.resourceVersion }

def Request.pending (w : Request δ) (L : Changelog δ) (horizon : ℕ) (cursor : ℕ ×ₗ ℕ) : List (Entry δ) :=
  (L.visible.filter fun e => e.commitXid < horizon ∧ cursor < pos e ∧ w.covers e.key).insertionSort
    fun a b => pos a ≤ pos b

inductive Reads (w : Request δ) (limit : ℕ) (L : Changelog δ) : Stream δ → Stream δ → Prop
  | horizon (s : Stream δ) (h : s.phase = .idle) : Reads w limit L s { s with phase := .polled L.horizon }
  | rows (s : Stream δ) {h : ℕ} (hphase : s.phase = .polled h) :
      Reads w limit L s { s with phase := .sending h 0 ((w.pending L h s.cursor).take limit) }
  | send (s : Stream δ) {h n : ℕ} {e : Entry δ} {rest : List (Entry δ)} (hphase : s.phase = .sending h n (e :: rest)) :
      Reads w limit L s
        { s.advanceCursor e with result := s.result ++ (w.event e).toList, phase := .sending h (n + 1) rest }
  | done (s : Stream δ) {h n : ℕ} (hphase : s.phase = .sending h n []) : Reads w limit L s { s with phase := .idle }
  -- a statement that fails ends the poll wherever it is
  | fail (s : Stream δ) : Reads w limit L s { s with phase := .idle }

structure World (δ : Type) where
  log : Changelog δ
  stream : Stream δ

inductive Step (w : Request δ) (limit : ℕ) : World δ → World δ → Prop
  | write {L L' : Changelog δ} (s : Stream δ) (h : L.Step L') : Step w limit ⟨L, s⟩ ⟨L', s⟩
  | read (L : Changelog δ) {s s' : Stream δ} (h : Reads w limit L s s') : Step w limit ⟨L, s⟩ ⟨L, s'⟩

abbrev Reaches (w : Request δ) (limit : ℕ) : World δ → World δ → Prop :=
  Relation.ReflTransGen (Step w limit)

def World.start (L : Changelog δ) (cursor : ℕ ×ₗ ℕ) (lastRV : ℕ) : World δ :=
  ⟨L, ⟨cursor, lastRV, [], .idle⟩⟩

theorem Step.grows {w : Request δ} {limit : ℕ} {a b : World δ} (h : Step w limit a b) : a.log.Grows b.log := by
  cases h with
  | write s h => exact .single h
  | read L h => exact .refl

theorem Reaches.grows {w : Request δ} {limit : ℕ} {a b : World δ} (h : Reaches w limit a b) :
    a.log.Grows b.log := by
  induction h with
  | refl => exact .refl
  | tail _ hstep ih => exact ih.trans hstep.grows

theorem reaches_of_grows {w : Request δ} {limit : ℕ} {L L' : Changelog δ} (h : L.Grows L') (s : Stream δ) :
    Reaches w limit ⟨L, s⟩ ⟨L', s⟩ := by
  induction h with
  | refl => exact .refl
  | tail _ hstep ih => exact ih.tail (.write s hstep)

theorem mem_pending {w : Request δ} {L : Changelog δ} {h : ℕ} {c : ℕ ×ₗ ℕ} {e : Entry δ} :
    e ∈ w.pending L h c ↔ e ∈ L.visible ∧ e.commitXid < h ∧ c < pos e ∧ w.covers e.key := by
  simp [Request.pending, List.mem_insertionSort]

end Ipam.Watch
