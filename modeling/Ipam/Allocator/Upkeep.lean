import Ipam.Allocator.Frame
import Ipam.Database.RowLocks

namespace Ipam.Allocator

open Allocation Database Transaction

def Effect.Books (emptyDigest : String) (k : Key) : Effect → Prop
  | .insertRow r => ∃ b, r = reservationRow emptyDigest k b
  | .insertFloor pool _ _ => pool = k
  | .setFloor pool _ _ => pool = k
  | .putConsumed pool _ => pool = k
  | _ => False

def Effect.Publishes (k : Key) (pool : IPPool) (e : Effect) : Prop :=
  ∃ parents n, e = .putObject k (.pool (setPoolCapacityStatus pool parents n))

def Effect.Upkeep (emptyDigest : String) (k : Key) (pool : IPPool) (e : Effect) : Prop :=
  Effect.Books emptyDigest k e ∨ Effect.Publishes k pool e

section

variable (emptyDigest : String) (k : Key)

theorem writeConsumed_books (n : ℕ) : Emits postgres (Effect.Books emptyDigest k) (writeConsumed k n) := by
  apply Emits.call
  intro s r es hexec
  have h : exec (.writeConsumed k n) s = .ok (r, es) := hexec
  simp only [exec] at h
  split at h
  · cases h
  · cases h
    simp [Effect.Books]

theorem insertReservation_books (block : IPNet) :
    Emits postgres (Effect.Books emptyDigest k) (insertReservation emptyDigest k block) := by
  apply (Emits.ofOption _).bind
  intro text
  apply Emits.call
  intro s r es hexec
  have h : exec (.insertReservation (reservationRow emptyDigest k text)) s = .ok (r, es) := hexec
  simp only [exec] at h
  split at h
  · cases h
    simp
  · cases hins : insertRow s (reservationRow emptyDigest k text) with
    | error e =>
      rw [hins] at h
      cases h
    | ok es' =>
      rw [hins] at h
      cases h
      rw [insertRow_ok hins]
      simp [Effect.Books]

theorem findBlock_books (digest : String) (parents : List IPNet) (n : ℤ) (strategy : Strategy) :
    Emits postgres (Effect.Books emptyDigest k) (findBlock k digest parents n strategy) := by
  apply (findBlock_emits k digest n parents strategy).mono
  rintro e ⟨d, floor, rfl | rfl⟩
  · exact rfl
  · exact rfl

variable (parents : List IPNet)

theorem reserveBlocks_books (blocks : List IPNet) (consumed : Option ℕ) :
    Emits postgres (Effect.Books emptyDigest k) (reserveBlocks emptyDigest k parents blocks consumed) := by
  induction blocks generalizing consumed with
  | nil => trivial
  | cons block rest ih =>
    apply (consumptionAfterAllocate_emits k parents block).bind
    intro next
    apply (insertReservation_books emptyDigest k block).bind
    intro inserted
    split
    · exact (writeConsumed_books emptyDigest k next).bind fun _ => ih (some next)
    · exact ih consumed

theorem persistPoolCapacity_publishes (pool : IPPool) (consumed : ℕ) :
    Emits postgres (Effect.Publishes k pool) (persistPoolCapacity k pool parents consumed) := by
  apply Emits.call
  intro s r es hexec
  obtain ⟨-, rfl⟩ := updateObject_ok hexec
  intro e he
  exact ⟨parents, consumed, List.mem_singleton.mp he⟩

theorem materialiseReservations_upkeep (pool : IPPool) :
    Emits postgres (Effect.Upkeep emptyDigest k pool) (materialiseReservations emptyDigest k pool parents) := by
  simp only [materialiseReservations]
  split
  · trivial
  apply (emits_read (q := .holdsReservations k) fun _ => rfl).bind
  intro held
  split
  · trivial
  apply (Emits.ofExcept _).bind
  intro blocks
  apply ((reserveBlocks_books emptyDigest k parents blocks none).mono fun _ => Or.inl).bind
  intro consumed
  cases consumed with
  | none => trivial
  | some consumed => exact (persistPoolCapacity_publishes k parents pool consumed).mono fun _ => Or.inr

def settleRelease (old : Row) (pool : IPPool) : Tx Unit := do
  let parents ← parsePoolCIDR pool
  let consumed ← consumptionAfterRelease old.poolKey parents old.cidr.net
  writeConsumed old.poolKey consumed
  persistPoolCapacity old.poolKey pool parents consumed

theorem settleRelease_upkeep (old : Row) (pool : IPPool) :
    Emits postgres (Effect.Upkeep emptyDigest old.poolKey pool) (settleRelease old pool) := by
  have hparse : Emits postgres (Effect.Upkeep emptyDigest old.poolKey pool) (parsePoolCIDR pool) :=
    (Emits.ofOption _).bind fun _ => trivial
  apply hparse.bind
  intro parents
  apply (consumptionAfterRelease_emits old.poolKey parents old.cidr.net).bind
  intro consumed
  apply ((writeConsumed_books emptyDigest old.poolKey consumed).mono fun _ => Or.inl).bind
  exact fun _ => (persistPoolCapacity_publishes old.poolKey parents pool consumed).mono fun _ => Or.inr

end

end Ipam.Allocator
