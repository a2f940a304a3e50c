import Ipam.Allocation.Accounting
import Ipam.Allocation.Units

namespace Ipam.Allocation

open Counting

def IPNet.Settles (p : IPNet) (cs : List IPNet) : Prop :=
  ∀ c ∈ cs, c.Inside p ∨ c.Apart p

instance (p : IPNet) (cs : List IPNet) : Decidable (p.Settles cs) :=
  inferInstanceAs (Decidable (∀ c ∈ cs, _))

def IPNet.Counts (p : IPNet) (cs : List IPNet) : Prop :=
  ∀ c ∈ cs, p.Holds c.bits c.ip.addr ∨ c.Apart p

instance (p : IPNet) (cs : List IPNet) : Decidable (p.Counts cs) :=
  inferInstanceAs (Decidable (∀ c ∈ cs, _))

theorem IPNet.Settles.counts {p : IPNet} {cs : List IPNet} (h : p.Settles cs) : p.Counts cs :=
  fun c hc => (h c hc).imp_left fun hinside => hinside _ _ c.holds_self

def Held (f : Family) (cs : List IPNet) (x : ℕ) : Prop :=
  ∃ c ∈ cs, c.Holds f x

instance (f : Family) (cs : List IPNet) : DecidablePred (Held f cs) :=
  fun _ => inferInstanceAs (Decidable (∃ c ∈ cs, _))

def addresses (parents : List IPNet) : Finset ℕ :=
  parents.toFinset.biUnion fun p => Finset.Ico p.base (p.base + p.size)

theorem mem_addresses {f : Family} {parents : List IPNet} (hfam : ∀ p ∈ parents, p.bits = f) (x : ℕ) :
    x ∈ addresses parents ↔ Held f parents x := by
  simp only [addresses, Finset.mem_biUnion, List.mem_toFinset, Finset.mem_Ico, Held, IPNet.Holds]
  constructor
  · rintro ⟨p, hp, hx⟩
    exact ⟨p, hp, hfam p hp, hx⟩
  · rintro ⟨p, hp, -, hx⟩
    exact ⟨p, hp, hx⟩

theorem accounted_iff_held {p : IPNet} {cs : List IPNet} (hp : ¬ p.MeetsMapped)
    (hcs : ∀ c ∈ cs, ¬ c.MeetsMapped) (hcounts : p.Counts cs) {x : ℕ} (hx : p.Holds p.bits x) :
    Accounted p cs x ↔ Held p.bits cs x := by
  constructor
  · rintro ⟨c, hc, hmem⟩
    have hmem' := (mem_filterWithin.mp hc).1
    have hfilter := (mem_filterWithin_unmapped hp (hcs c hmem')).mp hc
    exact ⟨c, hfilter.1, (IPNet.holds_iff_mem (hcs c hmem') _ x).mpr ⟨hfilter.2.1.symm, hmem⟩⟩
  · rintro ⟨c, hc, hholds⟩
    have hself : p.Holds c.bits c.ip.addr := by
      rcases hcounts c hc with h | h
      · exact h
      · exact absurd hx (h _ x hholds)
    exact ⟨c, (mem_filterWithin_unmapped hp (hcs c hc)).mpr ⟨hc, hself⟩,
      ((IPNet.holds_iff_mem (hcs c hc) _ x).mp hholds).2⟩

theorem accounted_eq_card {p : IPNet} {cs : List IPNet} (hp : ¬ p.MeetsMapped)
    (hcs : ∀ c ∈ cs, ¬ c.MeetsMapped) (hset : p.Settles cs) :
    accounted p cs = ((Finset.Ico p.base (p.base + p.size)).filter (Held p.bits cs)).card := by
  have hlast : cidrLastAddr p + 1 = p.base + p.size := by
    have := p.size_pos
    rw [IPNet.cidrLastAddr_eq, IPNet.cidrFirstAddr_of_unmapped hp]
    omega
  rw [accounted, hlast, IPNet.cidrFirstAddr_of_unmapped hp]
  apply countIn_congr
  intro x hx hx'
  exact accounted_iff_held hp hcs hset.counts ⟨rfl, hx, hx'⟩

theorem addresses_cons (p : IPNet) (rest : List IPNet) :
    addresses (p :: rest) = Finset.Ico p.base (p.base + p.size) ∪ addresses rest := by
  simp only [addresses, List.toFinset_cons, Finset.biUnion_insert]

theorem addresses_disjoint {f : Family} {p : IPNet} {rest : List IPNet} (hp : p.bits = f)
    (hfam : ∀ q ∈ rest, q.bits = f) (hapart : ∀ q ∈ rest, p.Apart q) :
    Disjoint (Finset.Ico p.base (p.base + p.size)) (addresses rest) := by
  apply Finset.disjoint_left.mpr
  intro x hx hrest
  obtain ⟨q, hq, hholds⟩ := (mem_addresses hfam x).mp hrest
  exact hapart q hq f x ⟨hp, Finset.mem_Ico.mp hx⟩ hholds

theorem accounts_eq_card {f : Family} {parents cs : List IPNet} (hfam : ∀ p ∈ parents, p.bits = f)
    (hparents : ∀ p ∈ parents, ¬ p.MeetsMapped) (hdisj : parents.Pairwise IPNet.Apart)
    (hcs : ∀ c ∈ cs, ¬ c.MeetsMapped) (hset : ∀ p ∈ parents, p.Settles cs) :
    (accounts parents cs).total = (addresses parents).card ∧
      (accounts parents cs).consumed = ((addresses parents).filter (Held f cs)).card := by
  induction parents with
  | nil => exact ⟨rfl, rfl⟩
  | cons p rest ih =>
    obtain ⟨hapart, hdisj'⟩ := List.pairwise_cons.mp hdisj
    obtain ⟨hp, hfam'⟩ := List.forall_mem_cons.mp hfam
    obtain ⟨hmapped, hparents'⟩ := List.forall_mem_cons.mp hparents
    obtain ⟨hsettles, hset'⟩ := List.forall_mem_cons.mp hset
    obtain ⟨htotal, hconsumed⟩ := ih hfam' hparents' hdisj' hset'
    have hdisjoint := addresses_disjoint hp hfam' hapart
    have hcard := accounted_eq_card hmapped hcs hsettles
    rw [hp] at hcard
    simp only [accounts] at htotal hconsumed ⊢
    rw [addresses_cons, List.map_cons, List.sum_cons, List.map_cons, List.sum_cons, htotal, hconsumed, hcard]
    constructor
    · rw [Finset.card_union_of_disjoint hdisjoint, Nat.card_Ico, IPNet.addressCount_eq, Nat.add_sub_cancel_left]
    · rw [Finset.filter_union, Finset.card_union_of_disjoint (Finset.disjoint_filter_filter hdisjoint)]

theorem held_of_nested {f : Family} {cs ds : List IPNet} (hsub : ∀ c ∈ cs, c ∈ ds)
    (hnested : ∀ d ∈ ds, ∃ c ∈ cs, d.Inside c) (x : ℕ) : Held f ds x ↔ Held f cs x := by
  constructor
  · rintro ⟨d, hd, hx⟩
    obtain ⟨c, hc, hinside⟩ := hnested d hd
    exact ⟨c, hc, hinside f x hx⟩
  · rintro ⟨c, hc, hx⟩
    exact ⟨c, hsub c hc, hx⟩

theorem not_meetsMapped_of_inside {c d : IPNet} (h : c.Inside d) (hd : ¬ d.MeetsMapped) : ¬ c.MeetsMapped := by
  rintro ⟨hv6, hlo, hhi⟩
  have hsize := c.size_pos
  rcases le_or_gt mappedStart c.base with hle | hlt
  · have hholds := h .v6 c.base ⟨hv6, le_rfl, by omega⟩
    exact IPNet.not_mapped_of_holds hd hholds ⟨rfl, hle, hlo⟩
  · have hholds := h .v6 mappedStart ⟨hv6, hlt.le, hhi⟩
    exact IPNet.not_mapped_of_holds hd hholds ⟨rfl, le_rfl, by omega⟩

theorem settles_of_nested {p : IPNet} {cs ds : List IPNet} (h : p.Settles cs)
    (hnested : ∀ d ∈ ds, ∃ c ∈ cs, d.Inside c) : p.Settles ds := by
  intro d hd
  obtain ⟨c, hc, hinside⟩ := hnested d hd
  rcases h c hc with hc' | hc'
  · exact Or.inl (hinside.trans hc')
  · exact Or.inr (hc'.of_inside hinside)

theorem measure_union (f : Family) (parents cs : List IPNet) (u : ℤ) (hfam : ∀ p ∈ parents, p.bits = f)
    (hparents : ∀ p ∈ parents, ¬ p.MeetsMapped) (hdisj : parents.Pairwise IPNet.Apart)
    (hcs : ∀ c ∈ cs, ¬ c.MeetsMapped) (hset : ∀ p ∈ parents, p.Settles cs) :
    (∃ m, measure parents cs ⟨u, 0, 0⟩ = .ok m ∧ m.total = (addresses parents).card ∧
      m.consumed = ((addresses parents).filter (Held f cs)).card ∧ m.free = m.total - m.consumed) ∧
    ∀ ds, (∀ c ∈ cs, c ∈ ds) → (∀ d ∈ ds, ∃ c ∈ cs, d.Inside c) →
      measure parents ds ⟨u, 0, 0⟩ = measure parents cs ⟨u, 0, 0⟩ := by
  obtain ⟨htotal, hconsumed⟩ := accounts_eq_card hfam hparents hdisj hcs hset
  constructor
  · have hadd := accounts_add parents cs
    exact ⟨accounts parents cs, measure_zero parents cs u, htotal, hconsumed, by omega⟩
  · intro ds hsub hnested
    have hds : ∀ d ∈ ds, ¬ d.MeetsMapped := by
      intro d hd
      obtain ⟨c, hc, hinside⟩ := hnested d hd
      exact not_meetsMapped_of_inside hinside (hcs c hc)
    have heach : ∀ p ∈ parents, accounted p ds = accounted p cs := by
      intro p hp
      rw [accounted_eq_card (hparents p hp) hcs (hset p hp),
        accounted_eq_card (hparents p hp) hds (settles_of_nested (hset p hp) hnested)]
      congr 1
      apply Finset.filter_congr
      intro x _
      exact held_of_nested hsub hnested x
    have haccounts : accounts parents ds = accounts parents cs := by
      simp only [accounts, PoolMeasurement.mk.injEq, true_and]
      constructor
      · congr 1
        exact List.map_congr_left heach
      · congr 1
        apply List.map_congr_left
        intro p hp
        rw [heach p hp]
    rw [measure_zero, measure_zero, haccounts]

theorem measure_union_tenNet :
    let parents := [tenNet 8 30, tenNet 0 30]
    let held := [tenNet 9 32, tenNet 0 31]
    (∃ m, measure parents held ⟨0, 0, 0⟩ = .ok m ∧ m.total = (addresses parents).card ∧
      m.consumed = ((addresses parents).filter (Held .v4 held)).card ∧ m.free = m.total - m.consumed) ∧
    measure parents (tenNet 1 32 :: held ++ held) ⟨0, 0, 0⟩ =
      measure parents held ⟨0, 0, 0⟩ := by
  intro parents held
  have h := measure_union .v4 parents held 0 (by decide) (by decide) (by decide) (by decide) (by decide)
  exact ⟨h.1, h.2 _ (by decide) (by decide)⟩

def freshly (p : IPNet) (cs : List IPNet) (b : IPNet) : ℕ :=
  countIn (fun x => Accounted p [b] x ∧ ¬ Accounted p cs x) (cidrFirstAddr p) (cidrLastAddr p + 1)

theorem accounted_append_single (p : IPNet) (cs : List IPNet) (b : IPNet) :
    accounted p (cs ++ [b]) = accounted p cs + freshly p cs b := by
  apply countIn_or
  · intro x _ _
    rw [accounted_append]
    by_cases h : Accounted p cs x <;> simp [h]
  · rintro x _ _ h ⟨-, hn⟩
    exact hn h

theorem freshly_local {p b : IPNet} {cs ds : List IPNet} (hsub : ∀ c ∈ ds, c ∈ cs)
    (hall : ∀ c ∈ cs, cidrsOverlap c b = true → c ∈ ds) : freshly p ds b = freshly p cs b := by
  apply countIn_congr
  intro x _ _
  apply and_congr_right
  rintro ⟨b', hb, hbx⟩
  obtain ⟨hb', hfam, -⟩ := mem_filterWithin.mp hb
  obtain rfl := List.mem_singleton.mp hb'
  apply not_congr
  constructor
  · rintro ⟨c, hc, hcx⟩
    obtain ⟨hmem, hfilter⟩ := mem_filterWithin.mp hc
    exact ⟨c, mem_filterWithin.mpr ⟨hsub c hmem, hfilter⟩, hcx⟩
  · rintro ⟨c, hc, hcx⟩
    obtain ⟨hmem, hfilter⟩ := mem_filterWithin.mp hc
    have hsame : sameFamily c.ip b'.ip = true := by
      rw [sameFamily_iff] at hfam hfilter ⊢
      exact hfilter.1.symm.trans hfam
    exact ⟨c, mem_filterWithin.mpr ⟨hall c hmem (IPNet.cidrsOverlap_of_mem hsame hcx hbx), hfilter⟩, hcx⟩

theorem accounts_consumed_append (parents cs : List IPNet) (b : IPNet) :
    (accounts parents (cs ++ [b])).consumed =
      (accounts parents cs).consumed + (parents.map (freshly · cs b)).sum := by
  simp only [accounts, accounted_append_single, List.sum_map_add]

theorem consumptionDelta_eq (parents cs : List IPNet) (b : IPNet) :
    consumptionDelta parents cs b = .ok (parents.map (freshly · cs b)).sum := by
  simp only [consumptionDelta, measure_zero, bind, Except.bind, pure, Except.pure, accounts_consumed_append,
    Nat.add_sub_cancel_left]

theorem accounts_of_mem_iff {parents cs ds : List IPNet} (h : ∀ c, c ∈ cs ↔ c ∈ ds) :
    accounts parents cs = accounts parents ds := by
  have heach : (accounted · cs) = (accounted · ds) := by
    funext p
    exact accounted_of_mem_iff h
  have hfree : (fun p => addressCount p - accounted p cs) = fun p => addressCount p - accounted p ds := by
    funext p
    rw [accounted_of_mem_iff h]
  simp only [accounts, heach, hfree]

/-- `ds` is a list of blocks of `cs` with all of those that intersect `b`. -/
structure Meeting (b : IPNet) (cs ds : List IPNet) : Prop where
  sub : ∀ c ∈ ds, c ∈ cs
  all : ∀ c ∈ cs, ¬ c.Apart b → c ∈ ds

/-- Where the code takes a block of `cs` and `b` to overlap, they do. -/
def Unconfused (b : IPNet) (cs : List IPNet) : Prop :=
  ∀ c ∈ cs, cidrsOverlap c b = true → ¬ c.Apart b

instance (b : IPNet) (cs : List IPNet) : Decidable (Unconfused b cs) :=
  inferInstanceAs (Decidable (∀ c ∈ cs, _))

theorem unconfused_of_unmapped {b : IPNet} {cs : List IPNet} (hb : ¬ b.MeetsMapped) (hcs : ∀ c ∈ cs, ¬ c.MeetsMapped) :
    Unconfused b cs :=
  fun c hc h => (cidrsOverlap_iff (hcs c hc) hb).mp h

theorem consumptionDelta_meeting {parents cs ds : List IPNet} {b : IPNet} (h : Meeting b cs ds)
    (hclear : Unconfused b cs) :
    consumptionDelta parents ds b =
      .ok ((accounts parents (b :: cs)).consumed - (accounts parents cs).consumed) := by
  have hlocal : (freshly · ds b) = (freshly · cs b) := by
    funext p
    exact freshly_local h.sub fun c hc hover => h.all c hc (hclear c hc hover)
  have hcons : accounts parents (b :: cs) = accounts parents (cs ++ [b]) :=
    accounts_of_mem_iff fun c => by simp [or_comm]
  rw [consumptionDelta_eq, hlocal, hcons, accounts_consumed_append, Nat.add_sub_cancel_left]

theorem accounts_consumed_le_cons (parents cs : List IPNet) (b : IPNet) :
    (accounts parents cs).consumed ≤ (accounts parents (b :: cs)).consumed := by
  have hcons : accounts parents (b :: cs) = accounts parents (cs ++ [b]) :=
    accounts_of_mem_iff fun c => by simp [or_comm]
  rw [hcons, accounts_consumed_append]
  exact Nat.le_add_right _ _

inductive RunningTotal (parents : List IPNet) : List IPNet → ℤ → Prop
  | zero : RunningTotal parents [] 0
  | add {cs ds : List IPNet} {t : ℤ} {b : IPNet} {n : ℕ} (h : RunningTotal parents cs t)
      (hds : Meeting b cs ds) (hclear : Unconfused b cs) (hn : addedConsumption parents ds b = .ok n) :
      RunningTotal parents (b :: cs) (t + n)
  | remove {cs ds : List IPNet} {t : ℤ} {b : IPNet} {n : ℕ} (h : RunningTotal parents cs t) (hb : b ∈ cs)
      (hds : Meeting b (cs.erase b) ds) (hclear : Unconfused b (cs.erase b)) (hn : removedConsumption parents ds b = .ok n) :
      RunningTotal parents (cs.erase b) (t - n)

theorem RunningTotal.eq_consumed {parents cs : List IPNet} {t : ℤ} (h : RunningTotal parents cs t) :
    t = (accounts parents cs).consumed := by
  induction h with
  | zero =>
    have hnone : (accounted · []) = fun _ => 0 := by
      funext p
      apply countIn_none
      rintro x _ _ ⟨c, hc, -⟩
      exact absurd (mem_filterWithin.mp hc).1 (List.not_mem_nil)
    simp only [accounts, hnone, List.map_const', List.sum_replicate, smul_zero, Nat.cast_zero]
  | @add cs ds t b n h hds hclear hn ih =>
    rw [addedConsumption, consumptionDelta_meeting hds hclear] at hn
    have hle := accounts_consumed_le_cons parents cs b
    have hn' := Except.ok.inj hn
    omega
  | @remove cs ds t b n h hb hds hclear hn ih =>
    rw [removedConsumption, consumptionDelta_meeting hds hclear] at hn
    have hle := accounts_consumed_le_cons parents (cs.erase b) b
    have hsame : accounts parents (b :: cs.erase b) = accounts parents cs :=
      accounts_of_mem_iff fun c => (List.perm_cons_erase hb).symm.mem_iff
    rw [hsame] at hn hle
    have hn' := Except.ok.inj hn
    omega

/-- The deltas are those of the whole pool, and a total kept by them is what is measured, as long as no overlap is seen
where there is none. -/
theorem consumptionDelta_exact (parents : List IPNet) :
    (∀ cs ds b, Meeting b cs ds → Unconfused b cs → ∃ before after,
      measure parents cs ⟨0, 0, 0⟩ = .ok before ∧
      (∀ es, es.Perm (b :: cs) → measure parents es ⟨0, 0, 0⟩ = .ok after) ∧
      before.consumed ≤ after.consumed ∧
      addedConsumption parents ds b = .ok (after.consumed - before.consumed) ∧
      removedConsumption parents ds b = .ok (after.consumed - before.consumed)) ∧
    (∀ cs t, RunningTotal parents cs t → 0 ≤ t ∧
      ∃ m, measure parents cs ⟨0, 0, 0⟩ = .ok m ∧ t = m.consumed) ∧
    ∀ cs b, ¬ b.MeetsMapped → (∀ c ∈ cs, ¬ c.MeetsMapped) → Unconfused b cs := by
  refine ⟨?_, ?_, fun cs b => unconfused_of_unmapped⟩
  · intro cs ds b h hclear
    refine ⟨_, accounts parents (b :: cs), measure_zero parents cs 0, ?_, accounts_consumed_le_cons parents cs b,
      consumptionDelta_meeting h hclear, consumptionDelta_meeting h hclear⟩
    intro es hperm
    rw [measure_zero, accounts_of_mem_iff fun c => hperm.mem_iff]
  · intro cs t h
    have heq := h.eq_consumed
    exact ⟨by omega, _, measure_zero parents cs 0, heq⟩

/-- `10.0.0.0`, then `10.0.0.0/31` around it and `10.0.0.4` are added, and the first is removed. -/
theorem consumptionDelta_exact_tenNet :
    let parents := [tenNet 0 29]
    addedConsumption parents [tenNet 0 32] (tenNet 0 31) = .ok 1 ∧
      removedConsumption parents [tenNet 0 31] (tenNet 0 32) = .ok 0 ∧
      ∃ m, measure parents [tenNet 4 32, tenNet 0 31] ⟨0, 0, 0⟩ = .ok m ∧ (3 : ℤ) = m.consumed := by
  intro parents
  have hfirst : RunningTotal parents [tenNet 0 32] (0 + (1 : ℕ)) :=
    .add .zero ⟨by decide, by decide⟩ (by decide) (show addedConsumption parents [] _ = .ok 1 by decide)
  have hsecond : RunningTotal parents [tenNet 0 31, tenNet 0 32] (0 + (1 : ℕ) + (1 : ℕ)) :=
    .add hfirst ⟨by decide, by decide⟩ (by decide) (show addedConsumption parents [tenNet 0 32] _ = .ok 1 by decide)
  have hthird : RunningTotal parents [tenNet 4 32, tenNet 0 31, tenNet 0 32] (0 + (1 : ℕ) + (1 : ℕ) + (1 : ℕ)) :=
    .add hsecond ⟨by decide, by decide⟩ (by decide) (show addedConsumption parents [] _ = .ok 1 by decide)
  have hlast : RunningTotal parents [tenNet 4 32, tenNet 0 31] (0 + (1 : ℕ) + (1 : ℕ) + (1 : ℕ) - (0 : ℕ)) :=
    .remove (b := tenNet 0 32) hthird (by decide) ⟨by decide, by decide⟩ (by decide)
      (show removedConsumption parents [tenNet 0 31] _ = .ok 0 by decide)
  exact ⟨by decide, by decide, ((consumptionDelta_exact parents).2.1 _ _ hlast).2⟩

/-- `10.0.0.0/8` in an IPv4 parent and `::ffff:10.0.0.0/104` in an IPv6 one: the latter is measured in the former's
parent. -/
theorem consumptionDelta_mapped :
    let parents : List IPNet := [⟨⟨.v6, 0, by decide⟩, 0, by decide⟩, ⟨⟨.v4, 0, by decide⟩, 0, by decide⟩]
    let held : IPNet := ⟨⟨.v4, 10 * 2 ^ 24, by decide⟩, 8, by decide⟩
    let b : IPNet := ⟨⟨.v6, mappedStart + 10 * 2 ^ 24, by decide⟩, 104, by decide⟩
    (∃ p ∈ parents, held.Inside p) ∧ (∃ p ∈ parents, b.Inside p) ∧ Meeting b [held] [] ∧
      addedConsumption parents [] b = .ok (2 ^ 24) ∧ removedConsumption parents [] b = .ok (2 ^ 24) ∧
      measure parents [b, held] ⟨0, 0, 0⟩ = measure parents [held] ⟨0, 0, 0⟩ := by
  refine ⟨by decide, by decide, ⟨by simp, by decide⟩, by decide +kernel, by decide +kernel, by decide +kernel⟩

end Ipam.Allocation
