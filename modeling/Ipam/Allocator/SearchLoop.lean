import Ipam.Allocator.SearchPass

namespace Ipam.Allocator

open Allocation Database Transaction FirstFit

def reach (cs : List Cidr) (cursor : ℕ) : ℕ :=
  (cs.filter fun c => cursor ≤ c.last).length

theorem reach_lt {cs : List Cidr} {cursor : ℕ} {b : Cidr} (hb : b ∈ cs) (hle : cursor ≤ b.last) :
    reach cs (b.last + 1) < reach cs cursor := by
  have hfilter : cs.filter (fun c => b.last + 1 ≤ c.last) =
      (cs.filter fun c => cursor ≤ c.last).filter fun c => b.last + 1 ≤ c.last := by
    rw [List.filter_filter]
    apply List.filter_congr
    intro c _
    simp only [← Bool.decide_and, decide_eq_decide]
    omega
  simp only [reach]
  rw [hfilter]
  apply List.length_filter_lt_length_iff_exists.mpr
  exact ⟨b, by simp [hb, hle], by simp⟩

theorem searchLoop_done {pageSize pages : ℕ} {k : Key} {digest : String} {s : Scan} (h : s.done = true) :
    searchLoop pageSize k digest pages s = pure s := by
  cases pages <;> simp [searchLoop, h]

section

variable {p : Cidr} {cs : List Cidr} {lo : ℕ} {n : ℤ} {floor last : Option ℕ} {cursor : ℕ}
  {firstFree : Option (ℕ × Family)}
variable {Others : List Lock → Db → Db → Prop} {guard : Lock} {k : Key} {x : PoolState} {digest : String}
  {pageSize : ℕ}

theorem searchLoop_succ (pages : ℕ) :
    searchLoop pageSize k digest (pages + 1) (scanning p n floor cursor last firstFree) =
      (searchPass pageSize k digest (scanning p n floor cursor last firstFree)).bind
        (searchLoop pageSize k digest pages) := rfl

def StopsUnmapped (p : Cidr) (cs : List Cidr) (lo : ℕ) (n : ℤ) : Prop :=
  ∀ b ∈ cs, (Valid p n → NoneBelow (FreeFrom p cs lo) (wantedSize p n) (b.last + 1)) → ¬ Mapped p.family (b.last + 1)

def EndsBelowMapped (c : Cidr) : Prop :=
  c.family = .v6 ∧ c.last + 1 = mappedStart

instance (c : Cidr) : Decidable (EndsBelowMapped c) :=
  inferInstanceAs (Decidable (_ ∧ _))

theorem stopsUnmapped_of_not_meets (hm : ¬ p.MeetsMapped) (hedge : ¬ EndsBelowMapped p)
    (hin : ∀ c ∈ cs, c.within p = true) : StopsUnmapped p cs lo n := by
  rintro b hb - ⟨hf, hlo, hhi⟩
  obtain ⟨-, haddr, hlast⟩ := (Cidr.within_iff b p).mp (hin b hb)
  have hmem : p.Mem p.family b.last := ⟨rfl, haddr.trans b.addr_le_last, hlast⟩
  have hbelow : b.last < mappedStart := by
    by_contra hge
    exact p.not_mapped_of_not_meets hm hmem ⟨hf, by omega, by omega⟩
  rcases hlast.lt_or_eq with hlt | heq
  · exact p.not_mapped_of_not_meets hm ⟨rfl, hmem.2.1.trans (Nat.le_succ _), hlt⟩ ⟨hf, hlo, hhi⟩
  · exact hedge ⟨hf, by omega⟩

theorem not_whole_of_end (hin : ∀ c ∈ cs, c.within p = true) (hend : p.last + 1 < 2 ^ p.family.bits) :
    ¬ ∃ b ∈ cs, Whole b := by
  rintro ⟨b, hb, -, hlast⟩
  obtain ⟨hf, -, hle⟩ := (Cidr.within_iff b p).mp (hin b hb)
  rw [hf] at hlast
  omega

theorem searchLoop_total (F : PoolFrozen Others guard k) (hcs : blocksIn digest x.rows = cs)
    (hin : ∀ c ∈ cs, c.within p = true) (hsize : 0 < pageSize) (hend : p.last + 1 < 2 ^ p.family.bits)
    (hmap : StopsUnmapped p cs lo n) (pages : ℕ) (hs : Sound p (FreeFrom p cs lo) lo n cursor firstFree)
    (hw : Watermark cs cursor last) (hcursor : ¬ Mapped p.family cursor) :
    Locked postgres Others guard (Db.poolState k) x
      (searchLoop pageSize k digest pages (scanning p n floor cursor last firstFree))
      (fun s y => y = x ∧ Finished p (FreeFrom p cs lo) n s)
      (fun e _ => e = .searchDidNotAdvance ∧ pages ≤ reach cs cursor ∧ cursor + pages ≤ p.last + 1) := by
  have hwhole := not_whole_of_end hin hend
  induction pages generalizing cursor last firstFree with
  | zero => exact Locked.throw ⟨rfl, Nat.zero_le _, hs.le_last⟩
  | succ pages ih =>
    have hfaith : Faithful p cursor := ⟨by have := hs.le_last; omega, hcursor⟩
    rw [searchLoop_succ]
    apply Locked.bind
    apply (searchPass_turn F hcs hin hsize hs hw hfaith).mono
    · rintro s y ⟨rfl, hturn | ⟨hall, -⟩⟩
      · cases hturn with
        | moved b hb _ hle hs' hw' =>
          apply (ih hs' hw' (hmap b hb hs'.noneBelow)).mono
          · exact fun _ _ h => h
          · rintro e y ⟨rfl, hpages, hstop⟩
            exact ⟨rfl, hpages.trans_lt (reach_lt hb hle), by omega⟩
        | found _ _ _ _ hfin =>
          rw [searchLoop_done hfin.done]
          exact Locked.pure ⟨rfl, hfin⟩
        | ended _ hfin =>
          rw [searchLoop_done hfin.done]
          exact Locked.pure ⟨rfl, hfin⟩
      · exact absurd hall hwhole
    · exact fun _ _ hall => absurd hall hwhole

theorem searchPass_pastEnd (F : PoolFrozen Others guard k)
    (hin : ∀ c ∈ blocksIn digest x.rows, c.within p = true) (hs : Sound p (FreeFrom p cs lo) lo n (p.last + 1) firstFree) :
    Locked postgres Others guard (Db.poolState k) x
      (searchPass pageSize k digest (scanning p n floor (p.last + 1) last firstFree))
      (fun s y => y = x ∧ (Finished p (FreeFrom p cs lo) n s ∨ PastEnd p cs lo n floor s)) (fun _ _ => True) := by
  have hexec : ∀ s : Db, s.poolState k = x → postgres.exec
      (.loadBlocksCovering k digest (intToIP (p.last + 1) p.family).string p) s =
        .ok (coveringBlocks (blocksIn digest x.rows) (intToIP (p.last + 1) p.family).string p, []) := by
    rintro s rfl
    rfl
  rw [searchPass_scanning]
  apply Locked.read F hexec
  apply Locked.bind
  apply (feed_pastEnd (fun b hb => (mem_coveringBlocks.mp hb).2.2) hs).mono
  · rintro s y ⟨rfl, last', firstFree', rfl, hs'⟩
    rw [if_neg (show ¬ (scanning p n floor _ last' firstFree').done = true from Bool.false_ne_true),
      if_neg (by rw [need_moved]; exact not_not.mpr rfl)]
    exact searchPage_pastEnd F hin hs' _
  · exact fun _ _ _ => trivial

theorem faithful_of_mem (hmeets : ¬ p.MeetsMapped) (haddr : p.addr ≤ cursor) (hle : cursor ≤ p.last) :
    Faithful p cursor :=
  ⟨hle.trans_lt p.last_lt, p.not_mapped_of_not_meets hmeets ⟨rfl, haddr, hle⟩⟩

theorem searchLoop_sound (F : PoolFrozen Others guard k)
    (hcs : blocksIn digest x.rows = cs) (hin : ∀ c ∈ cs, c.within p = true) (hsize : 0 < pageSize)
    (hmeets : ¬ p.MeetsMapped) (haddr : p.addr ≤ lo) (pages : ℕ) {s : Scan}
    (hstate : (∃ cursor last firstFree, s = scanning p n floor cursor last firstFree ∧
        Sound p (FreeFrom p cs lo) lo n cursor firstFree ∧ Watermark cs cursor last ∧ cursor ≤ p.last) ∨
      PastEnd p cs lo n floor s ∨ Finished p (FreeFrom p cs lo) n s) :
    Locked postgres Others guard (Db.poolState k) x (searchLoop pageSize k digest pages s)
      (fun s y => y = x ∧ Finished p (FreeFrom p cs lo) n s) (fun _ _ => True) := by
  induction pages generalizing s with
  | zero =>
    rcases hstate with ⟨cursor, last, firstFree, rfl, -⟩ | ⟨last, firstFree, rfl, -⟩ | hfin
    · exact Locked.throw trivial
    · exact Locked.throw trivial
    · rw [searchLoop_done hfin.done]
      exact Locked.pure ⟨rfl, hfin⟩
  | succ pages ih =>
    rcases hstate with ⟨cursor, last, firstFree, rfl, hs, hw, hle⟩ | ⟨last, firstFree, rfl, hs⟩ | hfin
    · rw [searchLoop_succ]
      apply Locked.bind
      apply (searchPass_turn F hcs hin hsize hs hw (faithful_of_mem hmeets (haddr.trans hs.lo_le) hle)).mono
      · rintro s y ⟨rfl, hturn | ⟨-, hfin | hpast⟩⟩
        · apply ih
          cases hturn with
          | moved b hb _ _ hs' hw' =>
            by_cases hb' : b.last + 1 ≤ p.last
            · exact Or.inl ⟨_, _, _, rfl, hs', hw', hb'⟩
            · have heq : b.last + 1 = p.last + 1 := by
                have := hs'.le_last
                omega
              rw [heq] at hs' ⊢
              exact Or.inr (Or.inl ⟨_, _, rfl, hs'⟩)
          | found _ _ _ _ hfin => exact Or.inr (Or.inr hfin)
          | ended _ hfin => exact Or.inr (Or.inr hfin)
        · exact ih (Or.inr (Or.inr hfin))
        · exact ih (Or.inr (Or.inl hpast))
      · exact fun _ _ _ => trivial
    · rw [searchLoop_succ]
      apply Locked.bind
      apply (searchPass_pastEnd F (hcs ▸ hin) hs).mono
      · rintro s y ⟨rfl, hfin | hpast⟩
        · exact ih (Or.inr (Or.inr hfin))
        · exact ih (Or.inr (Or.inl hpast))
      · exact fun _ _ _ => trivial
    · rw [searchLoop_done hfin.done]
      exact Locked.pure ⟨rfl, hfin⟩

theorem ipToInt_not_mapped (f : Family) (ip : IP) : ¬ Mapped f (ipToInt ip) := by
  rintro ⟨-, hlo, hhi⟩
  obtain ⟨family, addr, hlt⟩ := ip
  have hsmall : ∀ a, a < 2 ^ 32 → ¬ mappedStart ≤ a := fun a ha => by
    have := pow_le_mappedStart
    omega
  cases family with
  | v4 => exact hsmall addr hlt hlo
  | v6 =>
    by_cases hdiv : addr / 2 ^ 32 = v4InV6Prefix
    · have hval : ipToInt ⟨.v6, addr, hlt⟩ = addr % 2 ^ 32 := by
        simp only [ipToInt, IP.to4, hdiv, if_true]
      rw [hval] at hlo
      exact hsmall _ (Nat.mod_lt _ (by positivity)) hlo
    · have hval : ipToInt ⟨.v6, addr, hlt⟩ = addr := by
        simp only [ipToInt, IP.to4, hdiv, if_false]
      rw [hval] at hlo hhi
      exact hdiv ((mapped_iff_div addr).mpr ⟨hlo, hhi⟩)

theorem startOf_not_mapped (hint : Option IP) : ¬ Mapped p.family (startOf p hint) := by
  have haddr : ¬ Mapped p.family p.addr := fun h => p.unmapped h.1 ((mapped_iff_div _).mpr h.2)
  cases hint with
  | none => simpa [startOf] using haddr
  | some ip =>
    rcases max_choice p.addr (ipToInt ip) with h | h
    · simpa [startOf, h] using haddr
    · simpa [startOf, h] using ipToInt_not_mapped p.family ip

structure Found (p : Cidr) (free : ℕ → Prop) (n : ℤ) (r : IPNet × Option IP) : Prop where
  block : ∃ h : Valid p n, ∃ start, Answer free (wantedSize p n) (some start) ∧
    r.1 = makeCIDR start n.toNat p.family h.toNat_le
  next : ∀ ip, r.2 = some ip → ∃ a, ip = intToIP a p.family ∧ free a ∧ ∀ x, free x → a ≤ x

theorem getResult_finished {free : ℕ → Prop} {s : Scan} (h : Finished p free n s) :
    (∃ b, s.getResult = .ok b ∧ Found p free n (b, s.getFirstFree)) ∨
      (s.getResult = .error .poolExhausted ∧ (Valid p n → Answer free (wantedSize p n) none)) := by
  simp only [Scan.getResult, h.done, if_true]
  cases hres : s.result with
  | none => exact Or.inr ⟨rfl, h.exhausted hres⟩
  | some b =>
    refine Or.inl ⟨b, rfl, h.found b hres, ?_⟩
    intro ip hip
    obtain ⟨⟨a, f⟩, ha, rfl⟩ := Option.map_eq_some_iff.mp hip
    have hlow := h.lowest
    rw [ha] at hlow
    obtain ⟨rfl, hfree, hle⟩ := hlow
    exact ⟨a, rfl, hfree, hle⟩

theorem searchResult_locked {free : ℕ → Prop} {s : Scan} (h : Finished p free n s) :
    Locked postgres Others guard (Db.poolState k) x
      ((Prog.ofExcept .allocation s.getResult).bind fun block => .pure (block, s.getFirstFree))
      (fun r y => y = x ∧ Found p free n r)
      (fun e _ => e = .allocation .poolExhausted ∧ (Valid p n → Answer free (wantedSize p n) none)) := by
  rcases getResult_finished h with ⟨b, hb, hfound⟩ | ⟨hexhausted, hnone⟩
  · rw [hb]
    exact Locked.pure ⟨rfl, hfound⟩
  · rw [hexhausted]
    exact Locked.throw ⟨rfl, hnone⟩

theorem boundedFirstFit_eq {hint : Option IP} {s : Scan} (h : Scan.newScan [p.net] n hint = .ok s) (limit : ℕ) :
    boundedFirstFit pageSize limit k digest [p.net] n hint =
      (searchLoop pageSize k digest limit s).bind fun s =>
        (Prog.ofExcept .allocation s.getResult).bind fun block => .pure (block, s.getFirstFree) := by
  simp only [boundedFirstFit, h]
  rfl

theorem newScan_freeFrom (p : Cidr) (cs : List Cidr) (n : ℤ) (hint : Option IP) :
    ∃ s, Scan.newScan [p.net] n hint = .ok s ∧
      ((s = scanning p n (hint.map ipToInt) (startOf p hint) none none ∧
          Sound p (FreeFrom p cs (startOf p hint)) (startOf p hint) n (startOf p hint) none) ∨
        Finished p (FreeFrom p cs (startOf p hint)) n s) :=
  newScan_spec (fun _ h => h.1) fun _ h => h.2.1

theorem boundedFirstFit_total (F : PoolFrozen Others guard k)
    (hcs : blocksIn digest x.rows = cs) (hin : ∀ c ∈ cs, c.within p = true) (hsize : 0 < pageSize)
    (hend : p.last + 1 < 2 ^ p.family.bits) (hint : Option IP) (hmap : StopsUnmapped p cs (startOf p hint) n)
    (limit : ℕ) :
    Locked postgres Others guard (Db.poolState k) x
      (boundedFirstFit pageSize limit k digest [p.net] n hint)
      (fun r y => y = x ∧ Found p (FreeFrom p cs (startOf p hint)) n r)
      (fun e _ => (e = .searchDidNotAdvance ∧ limit ≤ cs.length ∧ limit ≤ p.size) ∨
        (e = .allocation .poolExhausted ∧
          (Valid p n → Answer (FreeFrom p cs (startOf p hint)) (wantedSize p n) none))) := by
  obtain ⟨s, hnew, hstart⟩ := newScan_freeFrom p cs n hint
  have hloop : Locked postgres Others guard (Db.poolState k) x (searchLoop pageSize k digest limit s)
      (fun s y => y = x ∧ Finished p (FreeFrom p cs (startOf p hint)) n s)
      (fun e _ => e = .searchDidNotAdvance ∧ limit ≤ cs.length ∧ limit ≤ p.size) := by
    rcases hstart with ⟨rfl, hs⟩ | hfin
    · apply (searchLoop_total F hcs hin hsize hend hmap limit hs (fun l hl => by cases hl)
        (startOf_not_mapped hint)).mono
      · exact fun _ _ h => h
      · rintro e y ⟨rfl, hle, hstop⟩
        refine ⟨rfl, hle.trans (List.length_filter_le _ _), ?_⟩
        have := addr_le_startOf p hint
        have := (p.lt_last_succ p.last).mp le_rfl
        omega
    · rw [searchLoop_done hfin.done]
      exact Locked.pure ⟨rfl, hfin⟩
  rw [boundedFirstFit_eq hnew]
  apply Locked.bind
  apply hloop.mono
  · rintro s y ⟨rfl, hfin⟩
    exact (searchResult_locked hfin).mono (fun _ _ h => h) fun _ _ h => Or.inr h
  · exact fun _ _ h => Or.inl h

theorem search_starts {hint : Option IP} {s : Scan}
    (hstart : (s = scanning p n (hint.map ipToInt) (startOf p hint) none none ∧
        Sound p (FreeFrom p cs (startOf p hint)) (startOf p hint) n (startOf p hint) none) ∨
      Finished p (FreeFrom p cs (startOf p hint)) n s) :
    (∃ cursor last firstFree, s = scanning p n (hint.map ipToInt) cursor last firstFree ∧
        Sound p (FreeFrom p cs (startOf p hint)) (startOf p hint) n cursor firstFree ∧ Watermark cs cursor last ∧
          cursor ≤ p.last) ∨
      PastEnd p cs (startOf p hint) n (hint.map ipToInt) s ∨ Finished p (FreeFrom p cs (startOf p hint)) n s := by
  rcases hstart with ⟨rfl, hs⟩ | hfin
  · by_cases hle : startOf p hint ≤ p.last
    · exact Or.inl ⟨_, _, _, rfl, hs, (fun l hl => by cases hl), hle⟩
    · have heq : startOf p hint = p.last + 1 := by
        have := hs.le_last
        omega
      refine Or.inr (Or.inl ⟨none, none, ?_, ?_⟩)
      · rw [heq]
      · rwa [← heq]
  · exact Or.inr (Or.inr hfin)

theorem boundedFirstFit_sound (F : PoolFrozen Others guard k)
    (hcs : blocksIn digest x.rows = cs) (hin : ∀ c ∈ cs, c.within p = true) (hsize : 0 < pageSize)
    (hmeets : ¬ p.MeetsMapped) (hint : Option IP) (limit : ℕ) :
    Locked postgres Others guard (Db.poolState k) x
      (boundedFirstFit pageSize limit k digest [p.net] n hint)
      (fun r y => y = x ∧ Found p (FreeFrom p cs (startOf p hint)) n r) (fun _ _ => True) := by
  obtain ⟨s, hnew, hstart⟩ := newScan_freeFrom p cs n hint
  rw [boundedFirstFit_eq hnew]
  apply Locked.bind
  apply (searchLoop_sound F hcs hin hsize hmeets (addr_le_startOf p hint) limit (search_starts hstart)).mono
  · rintro s y ⟨rfl, hfin⟩
    exact (searchResult_locked hfin).mono (fun _ _ h => h) fun _ _ _ => trivial
  · exact fun _ _ _ => trivial

end

end Ipam.Allocator
