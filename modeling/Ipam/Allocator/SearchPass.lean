import Ipam.Allocation.ScanInvariant
import Ipam.Allocator.BoundedSearch
import Ipam.Database.Order
import Ipam.Database.PoolState

namespace Ipam.Allocator

open Allocation Database Transaction FirstFit

def Faithful (p : Cidr) (cursor : ℕ) : Prop :=
  cursor < 2 ^ p.family.bits ∧ ¬ Mapped p.family cursor

theorem string_intToIP {p : Cidr} {cursor : ℕ} (h : Faithful p cursor) :
    (intToIP cursor p.family).string = ⟨p.family, cursor, h.1⟩ := by
  have hip : intToIP cursor p.family = ⟨p.family, cursor, h.1⟩ := dif_pos h.1
  rw [hip]
  clear hip
  obtain ⟨hlt, hm⟩ := h
  revert hlt hm
  cases p.family with
  | v4 => exact fun _ _ => rfl
  | v6 =>
    intro hlt hm
    exact if_neg fun hdiv => hm ⟨rfl, (mapped_iff_div cursor).mp hdiv⟩

def Watermark (cs : List Cidr) (cursor : ℕ) (last : Option ℕ) : Prop :=
  ∀ l, last = some l → l < cursor ∧ ∀ c ∈ cs, cursor ≤ c.last → l ≤ c.addr

def Near (pageSize : ℕ) (cs : List Cidr) (cursor : ℕ) (b : Cidr) : Prop :=
  b.addr ≤ cursor ∨ (pageSize = 1 → ∀ c ∈ cs, cursor ≤ c.last → b.addr ≤ c.addr)

inductive Turn (p : Cidr) (cs : List Cidr) (lo : ℕ) (n : ℤ) (floor : Option ℕ) (pageSize cursor : ℕ) : Scan → Prop where
  | moved {last' : Option ℕ} {firstFree' : Option (ℕ × Family)} (b : Cidr) (hb : b ∈ cs)
      (hnear : Near pageSize cs cursor b) (hle : cursor ≤ b.last) (hs : Sound p (FreeFrom p cs lo) lo n (b.last + 1) firstFree')
      (hw : Watermark cs (b.last + 1) last') :
      Turn p cs lo n floor pageSize cursor (scanning p n floor (b.last + 1) last' firstFree')
  | found {s : Scan} (b : Cidr) (hb : b ∈ cs) (hnear : Near pageSize cs cursor b)
      (hroom : RoomBelow p (FreeFrom p cs lo) n b.addr) (hfin : Finished p (FreeFrom p cs lo) n s) : Turn p cs lo n floor pageSize cursor s
  | ended {s : Scan} (hpast : ∀ c ∈ cs, c.last < cursor) (hfin : Finished p (FreeFrom p cs lo) n s) :
      Turn p cs lo n floor pageSize cursor s

section

variable {p : Cidr} {cs : List Cidr} {lo : ℕ} {n : ℤ} {floor last : Option ℕ} {cursor : ℕ}
  {firstFree : Option (ℕ × Family)}

theorem sorted_map_range {bs : List Cidr} (hf : ∀ b ∈ bs, b.family = p.family)
    (h : bs.Pairwise fun c d => position c ≤ position d) : Sorted (bs.map Cidr.range) := by
  apply List.pairwise_map.mpr
  apply h.imp_of_mem
  intro c d hc hd hle
  rcases (position_le_iff ((hf c hc).trans (hf d hd).symm)).mp hle with h | h
  · exact h.le
  · exact h.1.le

theorem ahead_of_rows {bs : List Cidr} (hin : ∀ c ∈ cs, c.within p = true) (hlo : lo ≤ cursor)
    (hbs : ∀ c, c ∈ bs → c ∈ cs) (hall : ∀ c ∈ cs, cursor ≤ c.last → c ∈ bs) :
    Ahead (FreeFrom p cs lo) p.last cursor (bs.map Cidr.range) := by
  intro x hx
  constructor
  · rintro ⟨-, hlast, hfree⟩
    refine ⟨hlast, ?_⟩
    intro r hr hm
    obtain ⟨c, hc, rfl⟩ := List.mem_map.mp hr
    exact hfree c (hbs c hc) ⟨((Cidr.within_iff c p).mp (hin c (hbs c hc))).1, hm⟩
  · rintro ⟨hlast, hfree⟩
    refine ⟨hlo.trans hx, hlast, ?_⟩
    intro c hc hm
    exact hfree c.range (List.mem_map_of_mem (hall c hc (hx.trans hm.2.2))) hm.2

variable {Others : List Lock → Db → Db → Prop} {guard : Lock} {k : Key} {x : PoolState} {digest : String}
  {pageSize : ℕ}

theorem searchPage_turn (F : PoolFrozen Others guard k) (hcs : blocksIn digest x.rows = cs)
    (hin : ∀ c ∈ cs, c.within p = true) (hsize : 0 < pageSize) (hs : Sound p (FreeFrom p cs lo) lo n cursor firstFree)
    (hw : Watermark cs cursor last) (hfaith : Faithful p cursor)
    (hcover : ∀ c ∈ cs, ¬ c.Mem p.family cursor) :
    Locked postgres Others guard (Db.poolState k) x
      (searchPage pageSize k digest p (intToIP cursor p.family) (scanning p n floor cursor last firstFree))
      (fun s y => y = x ∧ Turn p cs lo n floor pageSize cursor s) (fun _ _ => False) := by
  have hfam : ∀ c ∈ cs, c.family = p.family := fun c hc => ((Cidr.within_iff c p).mp (hin c hc)).1
  have hlast : ∀ c ∈ cs, c.last ≤ p.last := fun c hc => ((Cidr.within_iff c p).mp (hin c hc)).2.2
  obtain ⟨all, hpage, hsorted, hmem⟩ := blocksFrom_eq_take cs ⟨p.family, cursor, hfaith.1⟩ p pageSize
  have hmem' : ∀ c, c ∈ all ↔ c ∈ cs ∧ cursor < c.addr := by
    intro c
    rw [hmem c]
    constructor
    · rintro ⟨hc, -, hcmp⟩
      refine ⟨hc, ?_⟩
      simp only [← hfam c hc] at hcmp
      rcases (networkCmp_host_ne_lt_iff c cursor).mp hcmp with h | ⟨h, -⟩
      · exact h
      · exact absurd ⟨hfam c hc, h.ge, h.trans_le c.addr_le_last⟩ (hcover c hc)
    · rintro ⟨hc, hlt⟩
      refine ⟨hc, hin c hc, ?_⟩
      simp only [← hfam c hc]
      exact (networkCmp_host_ne_lt_iff c cursor).mpr (Or.inl hlt)
  have hreach : ∀ c ∈ cs, cursor ≤ c.last → cursor < c.addr := by
    intro c hc hle
    by_contra hlt
    exact hcover c hc ⟨hfam c hc, not_lt.mp hlt, hle⟩
  have hahead : Ahead (FreeFrom p cs lo) p.last cursor (all.map Cidr.range) :=
    ahead_of_rows hin hs.lo_le (fun c hc => ((hmem' c).mp hc).1)
      (fun c hc hle => (hmem' c).mpr ⟨hc, hreach c hc hle⟩)
  have hsorted' : Sorted (all.map Cidr.range) :=
    sorted_map_range (fun c hc => hfam c ((hmem' c).mp hc).1) hsorted
  have hexec : ∀ s : Db, s.poolState k = x → postgres.exec
      (.loadBlocksFrom k digest (intToIP cursor p.family).string p pageSize) s = .ok (all.take pageSize, []) := by
    rintro s rfl
    rw [string_intToIP hfaith, ← hpage, ← hcs]
    rfl
  apply Locked.read F hexec
  by_cases hempty : all = []
  · subst hempty
    simp only [List.take_nil, if_true]
    refine Locked.pure ⟨rfl, .ended ?_ (atEnd_spec hs hahead)⟩
    intro c hc
    by_contra hle
    have := (hmem' c).mpr ⟨hc, hreach c hc (not_lt.mp hle)⟩
    simp at this
  · have hne : all.take pageSize ≠ [] := by
      simp [List.take_eq_nil_iff, hempty, hsize.ne']
    have hsplit : all.take pageSize ++ all.drop pageSize = all := List.take_append_drop _ _
    have hbs : ∀ b ∈ all.take pageSize, b ∈ cs ∧ cursor < b.addr :=
      fun b hb => (hmem' b).mp (List.mem_of_mem_take hb)
    obtain ⟨s, hfeed, hcase⟩ := @feedAll_spec p (FreeFrom p cs lo) lo n floor last cursor firstFree (all.take pageSize)
      (all.drop pageSize) (fun b hb => ⟨hfam b (hbs b hb).1, hlast b (hbs b hb).1⟩)
      (fun l hl b hb => (hw l hl).1.le.trans (hbs b hb).2.le) hs (by rwa [hsplit]) (by rwa [hsplit])
    rw [if_neg hne, feed_scanning, hfeed]
    have hnear : ∀ b ∈ all.take pageSize, Near pageSize cs cursor b := by
      intro b hb
      right
      rintro rfl c hc hle
      have hc' := (hmem' c).mpr ⟨hc, hreach c hc hle⟩
      cases all with
      | nil => simp at hc'
      | cons d rest =>
        obtain rfl : b = d := by simpa using hb
        have hfirst := (List.pairwise_cons.mp hsorted').1
        rcases List.mem_cons.mp hc' with rfl | hc'
        · exact le_rfl
        · exact hfirst c.range (List.mem_map_of_mem hc')
    rcases hcase with ⟨cursor', firstFree', rfl, hfed⟩ | ⟨hfin, b, hb, hroom⟩
    · obtain ⟨b, hb, rfl⟩ : ∃ b ∈ all.take pageSize, cursor' = b.last + 1 := by
        rcases hfed.stop with rfl | h
        · obtain ⟨b, hb⟩ := List.exists_mem_of_ne_nil _ hne
          have := hfed.behind b hb
          have := (hbs b hb).2
          have := b.addr_le_last
          omega
        · exact h
      refine Locked.pure ⟨rfl, .moved b (hbs b hb).1 (hnear b hb) ?_ hfed.sound ?_⟩
      · exact (hbs b hb).2.le.trans b.addr_le_last
      · intro l hl
        obtain ⟨d, hd⟩ : ∃ d, (all.take pageSize).getLast? = some d :=
          ⟨_, List.getLast?_eq_some_getLast hne⟩
        have hdmem := List.mem_of_getLast? hd
        obtain rfl : d.addr = l := by simpa [hd] using hl
        refine ⟨d.addr_le_last.trans_lt (hfed.behind d hdmem), ?_⟩
        intro c hc hle
        have hc' := (hmem' c).mpr ⟨hc, hreach c hc (hfed.le.trans hle)⟩
        rw [← hsplit, List.map_append] at hsorted'
        rcases List.mem_append.mp (hsplit ▸ hc') with hmemc | hmemc
        · have := hfed.behind c hmemc
          omega
        · exact (List.pairwise_append.mp hsorted').2.2 d.range (List.mem_map_of_mem hdmem) c.range
            (List.mem_map_of_mem hmemc)
    · exact Locked.pure ⟨rfl, .found b (hbs b hb).1 (hnear b hb) hroom hfin⟩

def PastEnd (p : Cidr) (cs : List Cidr) (lo : ℕ) (n : ℤ) (floor : Option ℕ) (s : Scan) : Prop :=
  ∃ last firstFree, s = scanning p n floor (p.last + 1) last firstFree ∧ Sound p (FreeFrom p cs lo) lo n (p.last + 1) firstFree

theorem atEnd_pastEnd (hs : Sound p (FreeFrom p cs lo) lo n (p.last + 1) firstFree) :
    Finished p (FreeFrom p cs lo) n (scanning p n floor (p.last + 1) last firstFree).atEnd := by
  apply atEnd_spec hs
  intro x hx
  constructor
  · intro hf
    have := hf.2.1
    omega
  · rintro ⟨hle, -⟩
    omega

theorem feed_pastEnd {bs : List Cidr} (hin : ∀ b ∈ bs, b.within p = true)
    (hs : Sound p (FreeFrom p cs lo) lo n (p.last + 1) firstFree) :
    Locked postgres Others guard (Db.poolState k) x
      (Prog.ofExcept .allocation ((scanning p n floor (p.last + 1) last firstFree).feed (bs.map Cidr.net)))
      (fun s y => y = x ∧ PastEnd p cs lo n floor s) (fun _ _ => True) := by
  have hb : ∀ b ∈ bs, b.family = p.family ∧ b.last ≤ p.last := by
    intro b hb
    have := (Cidr.within_iff b p).mp (hin b hb)
    exact ⟨this.1, this.2.2⟩
  have hcase := @feedAll_behind p n floor last (p.last + 1) firstFree bs hb
    (fun b hb' => Nat.lt_succ_of_le (hb b hb').2)
  rw [feed_scanning]
  rcases hcase with herr | ⟨last', hok⟩
  · rw [herr]
    exact Locked.throw trivial
  · rw [hok]
    exact Locked.pure ⟨rfl, last', firstFree, rfl, hs⟩

theorem searchPage_pastEnd (F : PoolFrozen Others guard k)
    (hin : ∀ c ∈ blocksIn digest x.rows, c.within p = true) (hs : Sound p (FreeFrom p cs lo) lo n (p.last + 1) firstFree) (start : IP) :
    Locked postgres Others guard (Db.poolState k) x
      (searchPage pageSize k digest p start (scanning p n floor (p.last + 1) last firstFree))
      (fun s y => y = x ∧ (Finished p (FreeFrom p cs lo) n s ∨ PastEnd p cs lo n floor s)) (fun _ _ => True) := by
  have hexec : ∀ s : Db, s.poolState k = x → postgres.exec (.loadBlocksFrom k digest start.string p pageSize) s =
      .ok (blocksFrom (blocksIn digest x.rows) start.string p pageSize, []) := by
    rintro s rfl
    rfl
  apply Locked.read F hexec
  obtain ⟨all, hpage, -, hmem⟩ := blocksFrom_eq_take (blocksIn digest x.rows) start.string p pageSize
  rw [hpage]
  split
  · exact Locked.pure ⟨rfl, Or.inl (atEnd_pastEnd hs)⟩
  · apply (feed_pastEnd _ hs).mono
    · rintro s y ⟨rfl, h⟩
      exact ⟨rfl, Or.inr h⟩
    · exact fun _ _ _ => trivial
    · intro b hb
      exact ((hmem b).mp (List.mem_of_mem_take hb)).2.1

theorem need_moved (cursor' : ℕ) (last' : Option ℕ) (firstFree' : Option (ℕ × Family)) :
    ((scanning p n floor cursor' last' firstFree').need.any fun moved =>
        moved.2 ≠ intToIP cursor p.family) = true ↔ intToIP cursor' p.family ≠ intToIP cursor p.family := by
  simp [need_scanning]

theorem searchPass_scanning :
    searchPass pageSize k digest (scanning p n floor cursor last firstFree) =
      (send (.loadBlocksCovering k digest (intToIP cursor p.family).string p)).bind fun covering =>
        (Prog.ofExcept .allocation
            ((scanning p n floor cursor last firstFree).feed (List.map Cidr.net covering))).bind fun scan =>
          if scan.done then pure scan
          else if scan.need.any fun moved => moved.2 ≠ intToIP cursor p.family then pure scan
          else searchPage pageSize k digest p (intToIP cursor p.family) scan := by
  have hpass : searchPass pageSize k digest (scanning p n floor cursor last firstFree) =
      (Prog.ofOption .invalidCidr p.net.string >>= fun text =>
        send (.loadBlocksCovering k digest (intToIP cursor p.family).string text) >>= fun covering =>
        Prog.ofExcept .allocation ((scanning p n floor cursor last firstFree).feed (List.map Cidr.net covering)) >>=
          fun scan =>
            if scan.done then pure scan
            else if scan.need.any fun moved => moved.2 ≠ intToIP cursor p.family then pure scan
            else searchPage pageSize k digest text (intToIP cursor p.family) scan) := rfl
  rw [hpass, Cidr.string_net]
  rfl

def Whole (b : Cidr) : Prop :=
  b.addr = 0 ∧ b.last + 1 = 2 ^ b.family.bits

theorem whole_of_unmoved {b : Cidr} (hfaith : Faithful p cursor) (hb : b.Mem p.family cursor)
    (h : intToIP (b.last + 1) p.family = intToIP cursor p.family) : Whole b := by
  have hcursor : intToIP cursor p.family = ⟨p.family, cursor, hfaith.1⟩ := dif_pos hfaith.1
  have hover : ¬ b.last + 1 < 2 ^ p.family.bits := by
    intro hlt
    have hmoved : intToIP (b.last + 1) p.family = ⟨p.family, b.last + 1, hlt⟩ := dif_pos hlt
    rw [hcursor, hmoved] at h
    have hle := hb.2.2
    have heq : b.last + 1 = cursor := congrArg IP.addr h
    omega
  have hzero : cursor = 0 := by
    have hmoved : intToIP (b.last + 1) p.family = ⟨p.family, 0, by positivity⟩ := dif_neg hover
    rw [hcursor, hmoved] at h
    exact (congrArg IP.addr h).symm
  have hlast := b.last_lt
  rw [hb.1] at hlast
  refine ⟨?_, ?_⟩
  · have := hb.2.1
    omega
  · rw [hb.1]
    omega

theorem searchPass_covered (F : PoolFrozen Others guard k) (hcs : blocksIn digest x.rows = cs)
    (hin : ∀ c ∈ cs, c.within p = true) (hs : Sound p (FreeFrom p cs lo) lo n cursor firstFree)
    (hw : Watermark cs cursor last) (hfaith : Faithful p cursor) (hcover : ∃ c ∈ cs, c.Mem p.family cursor) :
    Locked postgres Others guard (Db.poolState k) x
      (searchPass pageSize k digest (scanning p n floor cursor last firstFree))
      (fun s y => y = x ∧
        ((∃ b ∈ cs, b.Mem p.family cursor ∧ ∃ last' firstFree', s = scanning p n floor (b.last + 1) last' firstFree' ∧
            Sound p (FreeFrom p cs lo) lo n (b.last + 1) firstFree' ∧ Watermark cs (b.last + 1) last') ∨
          ((∃ b ∈ cs, Whole b) ∧ (Finished p (FreeFrom p cs lo) n s ∨ PastEnd p cs lo n floor s))))
      (fun _ _ => ∃ b ∈ cs, Whole b) := by
  have hfam : ∀ c ∈ cs, c.family = p.family := fun c hc => ((Cidr.within_iff c p).mp (hin c hc)).1
  have hlast : ∀ c ∈ cs, c.last ≤ p.last := fun c hc => ((Cidr.within_iff c p).mp (hin c hc)).2.2
  obtain ⟨covering, hcovering⟩ : ∃ bs, coveringBlocks cs ⟨p.family, cursor, hfaith.1⟩ p = bs := ⟨_, rfl⟩
  have hmem : ∀ c, c ∈ covering ↔ c ∈ cs ∧ c.Mem p.family cursor := by
    intro c
    rw [← hcovering, mem_coveringBlocks]
    exact ⟨fun h => ⟨h.1, h.2.1⟩, fun h => ⟨h.1, h.2, hin c h.1⟩⟩
  have hempty : covering ≠ [] := by
    rintro rfl
    obtain ⟨c, hc, hm⟩ := hcover
    exact List.not_mem_nil ((hmem c).mpr ⟨hc, hm⟩)
  have hexec : ∀ s : Db, s.poolState k = x → postgres.exec
      (.loadBlocksCovering k digest (intToIP cursor p.family).string p) s = .ok (covering, []) := by
    rintro s rfl
    rw [string_intToIP hfaith, ← hcovering, ← hcs]
    rfl
  rw [searchPass_scanning]
  apply Locked.read F hexec
  -- the blocks that start above the cursor follow the covering ones
  obtain ⟨rest, hrest⟩ : ∃ bs, sortCidrs (cs.filter fun c => cursor < c.addr) = bs := ⟨_, rfl⟩
  have hmemrest : ∀ c, c ∈ rest ↔ c ∈ cs ∧ cursor < c.addr := by
    intro c
    rw [← hrest, mem_sortCidrs]
    simp
  have hsorted : Sorted ((covering ++ rest).map Cidr.range) := by
    rw [List.map_append]
    refine List.pairwise_append.mpr ⟨?_, ?_, ?_⟩
    · apply sorted_map_range fun c hc => hfam c ((hmem c).mp hc).1
      rw [← hcovering]
      exact sortCidrs_sorted _
    · apply sorted_map_range fun c hc => hfam c ((hmemrest c).mp hc).1
      rw [← hrest]
      exact sortCidrs_sorted _
    · intro a ha b hb
      obtain ⟨c, hc, rfl⟩ := List.mem_map.mp ha
      obtain ⟨d, hd, rfl⟩ := List.mem_map.mp hb
      exact ((hmem c).mp hc).2.2.1.trans ((hmemrest d).mp hd).2.le
  have hahead : Ahead (FreeFrom p cs lo) p.last cursor ((covering ++ rest).map Cidr.range) := by
    apply ahead_of_rows hin hs.lo_le
    · intro c hc
      rcases List.mem_append.mp hc with hc | hc
      · exact ((hmem c).mp hc).1
      · exact ((hmemrest c).mp hc).1
    · intro c hc hle
      by_cases hlt : cursor < c.addr
      · exact List.mem_append_right _ ((hmemrest c).mpr ⟨hc, hlt⟩)
      · exact List.mem_append_left _ ((hmem c).mpr ⟨hc, hfam c hc, not_lt.mp hlt, hle⟩)
  obtain ⟨s, hfeed, hcase⟩ := @feedAll_spec p (FreeFrom p cs lo) lo n floor last cursor firstFree covering rest
    (fun b hb => ⟨hfam b ((hmem b).mp hb).1, hlast b ((hmem b).mp hb).1⟩)
    (fun l hl b hb => (hw l hl).2 b ((hmem b).mp hb).1 ((hmem b).mp hb).2.2.2) hs hsorted hahead
  rw [feed_scanning, hfeed]
  change Locked _ _ _ _ _ (if s.done then pure s else _) _ _
  rcases hcase with ⟨cursor', firstFree', rfl, hfed⟩ | ⟨hfin, b, hb, hv, start, hstart, hfits⟩
  · rw [if_neg (show ¬ (scanning p n floor cursor' _ firstFree').done = true from Bool.false_ne_true)]
    obtain ⟨b, hb, rfl⟩ : ∃ b ∈ covering, cursor' = b.last + 1 := by
      rcases hfed.stop with rfl | h
      · obtain ⟨b, hb⟩ := List.exists_mem_of_ne_nil _ hempty
        have := hfed.behind b hb
        have := ((hmem b).mp hb).2.2.2
        omega
      · exact h
    have hb' := (hmem b).mp hb
    by_cases hmoved : intToIP (b.last + 1) p.family ≠ intToIP cursor p.family
    · rw [if_pos (by rw [need_moved]; exact hmoved)]
      refine Locked.pure ⟨rfl, Or.inl ⟨b, hb'.1, hb'.2, _, _, rfl, hfed.sound, ?_⟩⟩
      intro l hl
      obtain ⟨d, hd⟩ : ∃ d, covering.getLast? = some d := ⟨_, List.getLast?_eq_some_getLast hempty⟩
      have hdmem := List.mem_of_getLast? hd
      obtain rfl : d.addr = l := by simpa [hd] using hl
      refine ⟨d.addr_le_last.trans_lt (hfed.behind d hdmem), ?_⟩
      intro c hc hle
      by_contra hlt
      have hd' := ((hmem d).mp hdmem).2.2.1
      have hcov := (hmem c).mpr ⟨hc, hfam c hc, by omega, hfed.le.trans hle⟩
      have := hfed.behind c hcov
      omega
    · rw [if_neg (by rw [need_moved]; exact hmoved)]
      have hwhole := whole_of_unmoved hfaith hb'.2 (not_not.mp hmoved)
      have heq : b.last = p.last := by
        have hbp := hlast b hb'.1
        have hend := p.last_lt
        have hall := hwhole.2
        rw [hfam b hb'.1] at hall
        omega
      have hsound := hfed.sound
      rw [heq] at hsound ⊢
      apply (searchPage_pastEnd F (hcs ▸ hin) hsound _).mono
      · rintro s y ⟨rfl, h⟩
        exact ⟨rfl, Or.inr ⟨⟨b, hb'.1, hwhole⟩, h⟩⟩
      · exact fun _ _ _ => ⟨b, hb'.1, hwhole⟩
  · -- no block fits below a cursor
    have hbelow := hs.noneBelow hv start hfits
    have := ((hmem b).mp hb).2.2.1
    omega

theorem searchPass_uncovered (F : PoolFrozen Others guard k) (hcs : blocksIn digest x.rows = cs)
    (hin : ∀ c ∈ cs, c.within p = true) (hsize : 0 < pageSize) (hs : Sound p (FreeFrom p cs lo) lo n cursor firstFree)
    (hw : Watermark cs cursor last) (hfaith : Faithful p cursor) (hcover : ∀ c ∈ cs, ¬ c.Mem p.family cursor) :
    Locked postgres Others guard (Db.poolState k) x
      (searchPass pageSize k digest (scanning p n floor cursor last firstFree))
      (fun s y => y = x ∧ Turn p cs lo n floor pageSize cursor s) (fun _ _ => False) := by
  have hempty : coveringBlocks cs ⟨p.family, cursor, hfaith.1⟩ p = [] := by
    apply List.eq_nil_iff_forall_not_mem.mpr
    intro c hc
    obtain ⟨hc, hm, -⟩ := mem_coveringBlocks.mp hc
    exact hcover c hc hm
  have hexec : ∀ s : Db, s.poolState k = x → postgres.exec
      (.loadBlocksCovering k digest (intToIP cursor p.family).string p) s = .ok ([], []) := by
    rintro s rfl
    rw [string_intToIP hfaith, ← hempty, ← hcs]
    rfl
  rw [searchPass_scanning]
  apply Locked.read F hexec
  change Locked _ _ _ _ _ (if (scanning p n floor cursor last firstFree).need.any
    (fun moved => moved.2 ≠ intToIP cursor p.family) then _ else _) _ _
  rw [if_neg (by rw [need_moved]; exact not_not.mpr rfl)]
  exact searchPage_turn F hcs hin hsize hs hw hfaith hcover

theorem searchPass_turn (F : PoolFrozen Others guard k) (hcs : blocksIn digest x.rows = cs)
    (hin : ∀ c ∈ cs, c.within p = true) (hsize : 0 < pageSize) (hs : Sound p (FreeFrom p cs lo) lo n cursor firstFree)
    (hw : Watermark cs cursor last) (hfaith : Faithful p cursor) :
    Locked postgres Others guard (Db.poolState k) x
      (searchPass pageSize k digest (scanning p n floor cursor last firstFree))
      (fun s y => y = x ∧ (Turn p cs lo n floor pageSize cursor s ∨
        ((∃ b ∈ cs, Whole b) ∧ (Finished p (FreeFrom p cs lo) n s ∨ PastEnd p cs lo n floor s))))
      (fun _ _ => ∃ b ∈ cs, Whole b) := by
  by_cases hcover : ∃ c ∈ cs, c.Mem p.family cursor
  · apply (searchPass_covered F hcs hin hs hw hfaith hcover).mono
    · rintro s y ⟨rfl, ⟨b, hb, hm, last', firstFree', rfl, hs', hw'⟩ | hwhole⟩
      · exact ⟨rfl, Or.inl (.moved b hb (Or.inl hm.2.1) hm.2.2 hs' hw')⟩
      · exact ⟨rfl, Or.inr hwhole⟩
    · exact fun _ _ h => h
  · apply (searchPass_uncovered F hcs hin hsize hs hw hfaith fun c hc hm => hcover ⟨c, hc, hm⟩).mono
    · rintro s y ⟨rfl, hturn⟩
      exact ⟨rfl, Or.inl hturn⟩
    · exact fun _ _ h => h.elim

theorem searchPass_behind (F : PoolFrozen Others guard k)
    (hcs : blocksIn digest x.rows = cs) (hin : ∀ c ∈ cs, c.within p = true)
    (hcover : coveringBlocks cs (intToIP cursor p.family).string p = [])
    (hpage : blocksFrom cs (intToIP cursor p.family).string p pageSize ≠ [])
    (hbehind : ∀ c ∈ blocksFrom cs (intToIP cursor p.family).string p pageSize, c ∈ cs ∧ c.last < cursor) :
    Locked postgres Others guard (Db.poolState k) x
      (searchPass pageSize k digest (scanning p n floor cursor last firstFree))
      (fun s y => y = x ∧ ∃ last', s = scanning p n floor cursor last' firstFree)
      (fun e _ => e = .allocation .scanOutOfOrder) := by
  have hexec : ∀ s : Db, s.poolState k = x → postgres.exec
      (.loadBlocksCovering k digest (intToIP cursor p.family).string p) s = .ok ([], []) := by
    rintro s rfl
    rw [← hcover, ← hcs]
    rfl
  have hexec' : ∀ s : Db, s.poolState k = x → postgres.exec
      (.loadBlocksFrom k digest (intToIP cursor p.family).string p pageSize) s =
        .ok (blocksFrom cs (intToIP cursor p.family).string p pageSize, []) := by
    rintro s rfl
    rw [← hcs]
    rfl
  rw [searchPass_scanning]
  apply Locked.read F hexec
  change Locked _ _ _ _ _ (if (scanning p n floor cursor last firstFree).need.any
    (fun moved => moved.2 ≠ intToIP cursor p.family) then _ else _) _ _
  rw [if_neg (by rw [need_moved]; exact not_not.mpr rfl)]
  apply Locked.read F hexec'
  rw [if_neg hpage, feed_scanning]
  have hwithin : ∀ c ∈ blocksFrom cs (intToIP cursor p.family).string p pageSize,
      c.family = p.family ∧ c.last ≤ p.last := by
    intro c hc
    have := (Cidr.within_iff c p).mp (hin c (hbehind c hc).1)
    exact ⟨this.1, this.2.2⟩
  have hcase := @feedAll_behind p n floor last cursor firstFree _ hwithin fun c hc => (hbehind c hc).2
  rcases hcase with herr | ⟨last', hok⟩
  · rw [herr]
    exact Locked.throw rfl
  · rw [hok]
    exact Locked.pure ⟨rfl, last', rfl⟩

end

end Ipam.Allocator
