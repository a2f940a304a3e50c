import Ipam.Allocation.ScanInvariant

namespace Ipam.Allocation

open FirstFit

variable {p : Cidr} {n : ℤ} {floor last : Option ℕ} {cursor : ℕ} {firstFree : Option (ℕ × Family)}

def InRange (p : Cidr) (n : ℤ) (s : Scan) : Prop :=
  (∃ floor cursor last firstFree, s = scanning p n floor cursor last firstFree ∧ p.addr ≤ cursor) ∨
    (s.done = true ∧ ∀ b, s.result = some b → ∃ h : Valid p n, ∃ start, BlockAt p n.toNat start ∧
      b = makeCIDR start n.toNat p.family h.toNat_le)

theorem blockAt_of_fit {lo hi : ℕ} (hv : Valid p n) (hlo : p.addr ≤ lo) (hhi : hi ≤ p.last)
    (h : Dyadic.ceil lo (wantedSize p n) + wantedSize p n - 1 ≤ hi) :
    BlockAt p n.toNat (Dyadic.ceil lo (wantedSize p n)) := by
  refine ⟨by have := hv.1; omega, hv.toNat_le, Dyadic.ceil_dvd _ _ (wantedSize_pos p n), ?_, ?_⟩
  · exact hlo.trans (Dyadic.le_ceil _ _)
  · exact h.trans hhi

theorem tryFit_inRange {lo hi : ℕ} {s : Scan} (hlo : p.addr ≤ lo) (hhi : hi ≤ p.last)
    (h : (scanning p n floor cursor last firstFree).tryFit lo hi = some s) : InRange p n s := by
  rw [tryFit_scanning] at h
  by_cases hv : Valid p n
  · rw [dif_pos hv] at h
    obtain ⟨start, hstart, rfl⟩ := Option.map_eq_some_iff.mp h
    simp only [startIn] at hstart
    split at hstart
    · rename_i hfit
      obtain rfl := Option.some.inj hstart
      refine Or.inr ⟨rfl, fun b hb => ⟨hv, _, blockAt_of_fit hv hlo hhi hfit, (Option.some.inj hb).symm⟩⟩
    · cases hstart
  · rw [dif_neg hv] at h
    cases h

theorem feedOne_inRange {c : Cidr} {s : Scan} (hcursor : p.addr ≤ cursor)
    (h : (scanning p n floor cursor last firstFree).feedOne c.net = .ok s) : InRange p n s := by
  have hscan : ∀ cursor' last' firstFree', p.addr ≤ cursor' →
      InRange p n (scanning p n floor cursor' last' firstFree') :=
    fun cursor' last' firstFree' hle => Or.inl ⟨_, _, _, _, rfl, hle⟩
  by_cases hf : c.family = p.family
  · by_cases hp : c.addr ≤ p.last
    · rw [feedOne_net hf hp] at h
      split at h
      · cases h
      split at h
      · obtain rfl := Except.ok.inj h
        exact hscan _ _ _ hcursor
      split at h
      · split at h
        · rename_i hfit
          obtain rfl := Except.ok.inj h
          exact tryFit_inRange hcursor (by omega) hfit
        · obtain rfl := Except.ok.inj h
          exact hscan _ _ _ (hcursor.trans (le_max_left _ _))
      · obtain rfl := Except.ok.inj h
        exact hscan _ _ _ (hcursor.trans (le_max_left _ _))
    · have hbits : ¬ c.net.bits ≠ (scanning p n floor cursor last firstFree).bits := not_not.mpr hf
      simp only [Scan.feedOne, if_neg hbits, Cidr.cidrBounds_net] at h
      split at h
      · cases h
      · have hlt : p.last < c.addr := not_le.mp hp
        obtain rfl := Except.ok.inj ((if_pos hlt).symm.trans h)
        exact hscan _ _ _ hcursor
  · have hbits : c.net.bits ≠ (scanning p n floor cursor last firstFree).bits := hf
    obtain rfl := Except.ok.inj ((if_pos hbits).symm.trans h)
    exact hscan _ _ _ hcursor

theorem feedAll_inRange {bs : List Cidr} {s s' : Scan} (hs : InRange p n s)
    (h : s.feedAll (bs.map Cidr.net) = .ok s') : InRange p n s' := by
  induction bs generalizing s with
  | nil =>
    obtain rfl := Except.ok.inj h
    exact hs
  | cons c bs ih =>
    rcases hs with ⟨floor, cursor, last, firstFree, rfl, hcursor⟩ | hdone
    · have hfeed : ((scanning p n floor cursor last firstFree).feedOne c.net).bind
          (fun s => s.feedAll (bs.map Cidr.net)) = .ok s' := h
      cases hone : (scanning p n floor cursor last firstFree).feedOne c.net with
      | error e =>
        rw [hone] at hfeed
        cases hfeed
      | ok t =>
        rw [hone] at hfeed
        exact ih (feedOne_inRange hcursor hone) hfeed
    · simp only [List.map_cons, Scan.feedAll, hdone.1, if_true] at h
      obtain rfl := Except.ok.inj h
      exact Or.inr hdone

theorem feed_inRange {bs : List Cidr} {s s' : Scan} (hs : InRange p n s) (h : s.feed (bs.map Cidr.net) = .ok s') :
    InRange p n s' := by
  simp only [Scan.feed] at h
  split at h
  · cases h
  · exact feedAll_inRange hs h

theorem atEnd_inRange {s : Scan} (hs : InRange p n s) : InRange p n s.atEnd := by
  rcases hs with ⟨floor, cursor, last, firstFree, rfl, hcursor⟩ | hdone
  · have hstop : ∀ firstFree', InRange p n (scanning p n floor cursor last firstFree').advanceParent :=
      fun firstFree' => Or.inr ⟨rfl, fun b hb => by cases hb⟩
    rw [atEnd_scanning]
    split
    · split
      · rename_i hfit
        exact tryFit_inRange hcursor le_rfl hfit
      · exact hstop _
    · exact hstop _
  · have heq : s.atEnd = s := by simp only [Scan.atEnd, hdone.1, if_true]
    rw [heq]
    exact Or.inr hdone

theorem newScan_inRange {hint : Option IP} {s : Scan} (h : Scan.newScan [p.net] n hint = .ok s) :
    InRange p n s := by
  have hempty : ∀ x, (fun _ : ℕ => False) x → startOf p hint ≤ x := fun _ h => h.elim
  obtain ⟨t, ht, hcase⟩ := @newScan_spec p (fun _ => False) n hint hempty fun _ h => h.elim
  obtain rfl := Except.ok.inj (ht.symm.trans h)
  rcases hcase with ⟨rfl, -⟩ | hfin
  · exact Or.inl ⟨_, _, _, _, rfl, le_max_left _ _⟩
  · refine Or.inr ⟨hfin.done, ?_⟩
    intro b hb
    obtain ⟨hv, start, hans, -⟩ := hfin.found b hb
    exact (hans.1.isFree start le_rfl (by have := wantedSize_pos p n; omega)).elim

end Ipam.Allocation
