import Ipam.Allocation.Accounting

namespace Ipam.Allocation

open FirstFit

def Free (p : Cidr) (cs : List Cidr) (x : ℕ) : Prop :=
  p.addr ≤ x ∧ x ≤ p.last ∧ ∀ c ∈ cs, ¬ c.Mem p.family x

theorem Free.mem {p : Cidr} {cs : List Cidr} {x : ℕ} (h : Free p cs x) : p.Mem p.family x :=
  ⟨rfl, h.1, h.2.1⟩

def Cidr.range (c : Cidr) : IPRange := ⟨c.addr, c.last⟩

theorem Cidr.mem_net (c : Cidr) (x : ℕ) : c.net.Mem x ↔ c.addr ≤ x ∧ x ≤ c.last := by
  unfold IPNet.Mem
  rw [cidrFirstAddr_net, cidrLastAddr_net]

theorem mem_filterWithin_net {p : Cidr} {cs : List Cidr} {n : IPNet} :
    n ∈ filterWithin p.net (cs.map Cidr.net) ↔ ∃ c ∈ cs, p.Mem c.family c.addr ∧ c.net = n := by
  have hfam (c : Cidr) : sameFamily p.net.ip c.net.ip = (p.family == c.family) := Cidr.sameFamily_ip p c
  simp only [mem_filterWithin, List.mem_map]
  constructor
  · rintro ⟨⟨c, hc, rfl⟩, -, hcontains⟩
    exact ⟨c, hc, (Cidr.contains_net_ip p c).mp hcontains, rfl⟩
  · rintro ⟨c, hc, hmem, rfl⟩
    refine ⟨⟨c, hc, rfl⟩, ?_, (Cidr.contains_net_ip p c).mpr hmem⟩
    rw [hfam, hmem.1, beq_self_eq_true]

theorem vacant_net {p : Cidr} {cs : List Cidr} (hset : ∀ c ∈ cs, Settled p c) (x : ℕ) :
    Vacant p.net (cs.map Cidr.net) x ↔ Free p cs x := by
  simp only [Vacant, Accounted, mem_filterWithin_net, Cidr.mem_net]
  constructor
  · rintro ⟨⟨hx, hlast⟩, hfree⟩
    refine ⟨hx, hlast, ?_⟩
    intro c hc hm
    have hover : c.overlaps p = true := (c.overlaps_iff_mem p).mpr ⟨p.family, x, hm, rfl, hx, hlast⟩
    have hwithin : c.within p = true := by
      rcases hset c hc with h | h
      · exact h
      · rw [hover] at h
        cases h
    have haddr : p.Mem c.family c.addr := Cidr.Mem.of_within hwithin ⟨rfl, le_rfl, c.addr_le_last⟩
    exact hfree ⟨c.net, ⟨c, hc, haddr, rfl⟩, (c.mem_net x).mpr hm.2⟩
  · rintro ⟨hx, hlast, hfree⟩
    refine ⟨⟨hx, hlast⟩, ?_⟩
    rintro ⟨n, ⟨c, hc, hmem, rfl⟩, hm⟩
    exact hfree c hc ⟨hmem.1.symm, (c.mem_net x).mp hm⟩

theorem viewParent_free {p : Cidr} {cs : List Cidr} (hset : ∀ c ∈ cs, Settled p c) :
    ∀ r ∈ viewParent p.net (cs.map Cidr.net), ∀ x, r.Mem x → Free p cs x := by
  intro r hr x hx
  exact (vacant_net hset x).mp (viewParent_vacant hr hx)

theorem viewParent_answer {p : Cidr} {cs : List Cidr} {size : ℕ} (hset : ∀ c ∈ cs, Settled p c)
    (hpos : 0 < size) :
    Answer (Free p cs) size ((viewParent p.net (cs.map Cidr.net)).findSome? (startIn size)) := by
  have hfree : Vacant p.net (cs.map Cidr.net) = Free p cs := by
    funext x
    exact propext (vacant_net hset x)
  rw [← hfree]
  exact viewParent_first hpos

theorem blockSize_pos (prefixLen totalBits : ℕ) : 0 < blockSize prefixLen totalBits := by
  simp only [blockSize]
  positivity

theorem fitIn_eq_map (bits : Family) (n : ℕ) (h : n ≤ bits.bits) (r : IPRange) :
    fitIn bits n h r.start r.stop =
      (startIn (blockSize n bits.bits) r).map fun s => makeCIDR s n bits h := by
  have halign : alignUp r.start n bits.bits = Dyadic.ceil r.start (blockSize n bits.bits) := rfl
  simp only [fitIn, startIn]
  rw [halign]
  split <;> rfl

theorem findSome?_zipIdx {α β γ : Type} (l : List α) (k : ℕ) (g : α → Option β) (f : α × ℕ → β → γ)
    (proj : γ → β) (hproj : ∀ a b, proj (f a b) = b) :
    ((l.zipIdx k).findSome? fun a => (g a.1).map (f a)).map proj = l.findSome? g := by
  induction l generalizing k with
  | nil => rfl
  | cons a l ih =>
    simp only [List.zipIdx_cons, List.findSome?_cons]
    cases hg : g a with
    | none => simpa using ih (k + 1)
    | some b => simp [hproj]

theorem findSome?_map_option {α β γ : Type} (l : List α) (g : α → Option β) (f : β → γ) :
    (l.findSome? fun a => (g a).map f) = (l.findSome? g).map f := by
  induction l with
  | nil => rfl
  | cons a l ih =>
    simp only [List.findSome?_cons]
    cases hg : g a with
    | none => simpa using ih
    | some b => rfl

theorem toNat_le_bits (parent : IPNet) (prefixLen : ℤ)
    (h : ¬ (prefixLen < parent.ones ∨ parent.bits.bits < prefixLen)) : prefixLen.toNat ≤ parent.bits.bits := by
  omega

theorem firstFitIn_cidr (parent : IPNet) (regions : List IPRange) (prefixLen : ℤ)
    (h : ¬ (prefixLen < parent.ones ∨ parent.bits.bits < prefixLen)) :
    (firstFitIn parent regions prefixLen).map Fit.cidr =
      (regions.findSome? (startIn (blockSize prefixLen.toNat parent.bits.bits))).map fun s =>
        makeCIDR s prefixLen.toNat parent.bits (toNat_le_bits parent prefixLen h) := by
  simp only [firstFitIn, fitsOf, dif_neg h, List.head?_filterMap]
  rw [findSome?_zipIdx regions 0 (fun r => fitIn parent.bits prefixLen.toNat (by omega) r.start r.stop)
    (fun r cidr => ⟨cidr, r.1, r.2⟩) Fit.cidr (fun _ _ => rfl)]
  simp only [fitIn_eq_map]
  exact findSome?_map_option _ _ _

def outcome (bits : Family) (n : ℕ) (h : n ≤ bits.bits) : Option ℕ → Except Error IPNet
  | some s => .ok (makeCIDR s n bits h)
  | none => .error .poolExhausted

theorem findFirstAvailableBlock_singleton (parent : IPNet) (existing : List IPNet) (prefixLen : ℤ)
    (s : Strategy) (hs : strategyOrDefault s = .firstFit) :
    findFirstAvailableBlock [parent] existing prefixLen s =
      match (firstFitIn parent (viewParent parent existing) prefixLen).map Fit.cidr with
      | some cidr => .ok cidr
      | none => .error .poolExhausted := by
  simp only [findFirstAvailableBlock, List.cons_ne_nil, if_false, hs, if_true, List.findSome?_cons,
    List.findSome?_nil]
  cases firstFitIn parent (viewParent parent existing) prefixLen <;> rfl

theorem findFirstAvailableBlock_invalid (parent : IPNet) (existing : List IPNet) (prefixLen : ℤ)
    (s : Strategy) (hs : strategyOrDefault s = .firstFit)
    (h : prefixLen < parent.ones ∨ parent.bits.bits < prefixLen) :
    findFirstAvailableBlock [parent] existing prefixLen s = .error .poolExhausted := by
  rw [findFirstAvailableBlock_singleton parent existing prefixLen s hs]
  simp only [firstFitIn, fitsOf, dif_pos h, List.head?_nil, Option.map_none]

theorem findFirstAvailableBlock_firstFit {p : Cidr} {cs : List Cidr} (hset : ∀ c ∈ cs, Settled p c)
    {n : ℕ} (hp : p.len ≤ n) (hn : n ≤ p.family.bits) (s : Strategy)
    (hs : strategyOrDefault s = .firstFit) :
    ∃ o, Answer (Free p cs) (blockSize n p.family.bits) o ∧
      findFirstAvailableBlock [p.net] (cs.map Cidr.net) n s = outcome p.family n hn o := by
  obtain ⟨o, ho⟩ : ∃ o, (viewParent p.net (cs.map Cidr.net)).findSome?
      (startIn (blockSize n p.family.bits)) = o := ⟨_, rfl⟩
  have hans := viewParent_answer hset (blockSize_pos n p.family.bits)
  rw [ho] at hans
  refine ⟨o, hans, ?_⟩
  have hvalid : ¬ ((n : ℤ) < p.net.ones ∨ (p.net.bits.bits : ℤ) < n) := by
    have hones : p.net.ones = p.len := rfl
    have hbits : p.net.bits = p.family := rfl
    rw [hones, hbits]
    omega
  have hstart : (viewParent p.net (cs.map Cidr.net)).findSome?
      (startIn (blockSize (n : ℤ).toNat p.net.bits.bits)) = o := ho
  rw [findFirstAvailableBlock_singleton _ _ _ s hs, firstFitIn_cidr _ _ _ hvalid, hstart]
  cases o <;> rfl

theorem BlockAt.of_fits {p : Cidr} {cs : List Cidr} {n start : ℕ} (hp : p.len ≤ n) (hn : n ≤ p.family.bits)
    (h : Fits (Free p cs) (blockSize n p.family.bits) start) : BlockAt p n start := by
  have hpos := blockSize_pos n p.family.bits
  refine ⟨hp, hn, h.dvd, ?_, ?_⟩
  · exact (h.isFree start le_rfl (by omega)).1
  · exact (h.isFree (start + blockSize n p.family.bits - 1) (by omega) (by omega)).2.1

theorem mem_fitsOf {parent : IPNet} {regions : List IPRange} {prefixLen : ℤ} {f : Fit}
    (hf : f ∈ fitsOf parent regions prefixLen) :
    ∃ n : ℕ, ∃ hn : n ≤ parent.bits.bits, prefixLen = n ∧ parent.ones ≤ n ∧
      regions[f.regionIdx]? = some f.region ∧
      fitIn parent.bits n hn f.region.start f.region.stop = some f.cidr := by
  simp only [fitsOf] at hf
  split at hf
  · simp at hf
  · rename_i hvalid
    obtain ⟨r, hr, hfit⟩ := List.mem_filterMap.mp hf
    obtain ⟨cidr, hcidr, rfl⟩ := Option.map_eq_some_iff.mp hfit
    exact ⟨prefixLen.toNat, by omega, by omega, by omega, List.mem_zipIdx_iff_getElem?.mp hr, hcidr⟩

theorem pickBest_mem (better : Candidate → Candidate → Bool) (cs : List Candidate) (c : Candidate)
    (h : pickBest better cs = some c) : c ∈ cs := by
  have hfold : ∀ (rest : List Candidate) (best : Candidate),
      rest.foldl (fun best x => if better x best then x else best) best ∈ best :: rest := by
    intro rest
    induction rest with
    | nil => simp
    | cons x rest ih =>
      intro best
      simp only [List.foldl_cons]
      by_cases hb : better x best = true
      · rw [if_pos hb]
        exact List.mem_cons_of_mem _ (ih x)
      · rw [if_neg hb]
        rcases List.mem_cons.mp (ih best) with h | h
        · rw [h]
          exact List.mem_cons_self
        · exact List.mem_cons_of_mem _ (List.mem_cons_of_mem _ h)
  cases cs with
  | nil => simp [pickBest] at h
  | cons a rest =>
    simp only [pickBest, Option.some.injEq] at h
    exact h ▸ hfold rest a

theorem selectBlock_candidate {views : List ParentView} {prefixLen : ℤ} {s : Strategy} {c : Candidate}
    (h : selectBlock views prefixLen s = some c) :
    ∃ v, views[c.parentIdx]? = some v ∧ ∃ f ∈ fitsOf v.parent v.regions prefixLen,
      c.cidr = f.cidr ∧ c.regionIdx = f.regionIdx := by
  have hmem : c ∈ views.zipIdx.flatMap (candidatesOf prefixLen) := by
    simp only [selectBlock] at h
    split at h
    · exact pickBest_mem _ _ _ h
    · exact pickBest_mem _ _ _ h
    · exact List.mem_of_mem_head? h
  obtain ⟨v, hv, hc⟩ := List.mem_flatMap.mp hmem
  obtain ⟨f, hf, rfl⟩ := List.mem_map.mp hc
  exact ⟨v.1, List.mem_zipIdx_iff_getElem?.mp hv, f, hf, rfl, rfl⟩

theorem selectBlock_mem {views : List ParentView} {prefixLen : ℤ} {s : Strategy} {c : Candidate}
    (h : selectBlock views prefixLen s = some c) :
    ∃ v ∈ views, ∃ f ∈ fitsOf v.parent v.regions prefixLen, c.cidr = f.cidr := by
  obtain ⟨v, hv, f, hf, hcidr, -⟩ := selectBlock_candidate h
  exact ⟨v, List.mem_of_getElem? hv, f, hf, hcidr⟩

theorem pickBest_none {better : Candidate → Candidate → Bool} {cs : List Candidate} (h : pickBest better cs = none) :
    cs = [] := by
  cases cs with
  | nil => rfl
  | cons c cs => cases h

theorem selectBlock_none {views : List ParentView} {n : ℤ} {s : Strategy} (h : selectBlock views n s = none) :
    views.zipIdx.flatMap (candidatesOf n) = [] := by
  simp only [selectBlock] at h
  split at h
  · exact pickBest_none h
  · exact pickBest_none h
  · exact List.head?_eq_none_iff.mp h

theorem fits_of_fitIn {free : ℕ → Prop} {bits : Family} {n : ℕ} {hn : n ≤ bits.bits} {r : IPRange} {b : IPNet}
    (hfree : ∀ x, r.Mem x → free x) (h : fitIn bits n hn r.start r.stop = some b) :
    ∃ start, b = makeCIDR start n bits hn ∧ Fits free (blockSize n bits.bits) start := by
  rw [fitIn_eq_map] at h
  obtain ⟨start, hstart, rfl⟩ := Option.map_eq_some_iff.mp h
  simp only [startIn] at hstart
  split at hstart
  · rename_i hfit
    obtain rfl := Option.some.inj hstart
    refine ⟨_, rfl, Dyadic.ceil_dvd _ _ (blockSize_pos _ _), ?_⟩
    intro x hx hx'
    exact hfree x ⟨(Dyadic.le_ceil _ _).trans hx, by omega⟩
  · simp at hstart

theorem findFirstAvailableBlock_sound {p : Cidr} {cs : List Cidr} (hset : ∀ c ∈ cs, Settled p c)
    {prefixLen : ℤ} {s : Strategy} {b : IPNet}
    (h : findFirstAvailableBlock [p.net] (cs.map Cidr.net) prefixLen s = .ok b) :
    ∃ n : ℕ, ∃ hn : n ≤ p.family.bits, prefixLen = n ∧ p.len ≤ n ∧
      ∃ start, b = makeCIDR start n p.family hn ∧ Fits (Free p cs) (blockSize n p.family.bits) start := by
  have hmem : ∃ f ∈ fitsOf p.net (viewParent p.net (cs.map Cidr.net)) prefixLen, b = f.cidr := by
    simp only [findFirstAvailableBlock, List.cons_ne_nil, if_false] at h
    split at h
    · split at h
      · rename_i f hf
        simp only [List.findSome?_cons, List.findSome?_nil] at hf
        split at hf
        · rename_i g hg
          obtain rfl := Option.some.inj hf
          exact ⟨g, List.mem_of_mem_head? hg, (Except.ok.inj h).symm⟩
        · cases hf
      · cases h
    · split at h
      · rename_i c hc
        obtain ⟨v, hv, f, hf, hcf⟩ := selectBlock_mem hc
        obtain rfl := Except.ok.inj h
        simp only [viewPool, List.map_cons, List.map_nil, List.mem_singleton] at hv
        subst hv
        exact ⟨f, hf, hcf⟩
      · cases h
  obtain ⟨f, hf, rfl⟩ := hmem
  obtain ⟨n, hn, hlen, hp, hr, hfit⟩ := mem_fitsOf hf
  exact ⟨n, hn, hlen, hp, fits_of_fitIn (viewParent_free hset _ (List.mem_of_getElem? hr)) hfit⟩

end Ipam.Allocation
