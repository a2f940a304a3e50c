import Ipam.Allocator.Consumption
import Ipam.Database.Order

namespace Ipam.Allocator

open Allocation Database Transaction

structure FloorsSound (p : Cidr) (x : PoolState) : Prop where
  named : floorAt x.floors spaceAll = none
  plain : ∀ d f, floorAt x.floors d = some f → Plain p f
  below : ∀ d f, floorAt x.floors d = some f → FloorBelow p (blocksIn d x.rows) (some f)

theorem Plain.ipToInt {p : Cidr} {f : IP} (h : Plain p f) : Allocation.ipToInt f = f.addr := by
  obtain ⟨family, addr, hlt⟩ := f
  obtain ⟨hf, hm⟩ := h
  simp only at hf hm
  subst hf
  revert hlt hm
  cases p.family with
  | v4 => exact fun _ _ => rfl
  | v6 =>
    intro hm hlt
    have hdiv : ¬ addr / 2 ^ 32 = v4InV6Prefix := fun hdiv => hm ⟨rfl, (mapped_iff_div addr).mp hdiv⟩
    simp only [Allocation.ipToInt, IP.to4, hdiv, if_false]

theorem plain_ip {p c : Cidr} (h : c.family = p.family) : Plain p c.ip := by
  refine ⟨h, ?_⟩
  rintro ⟨hf, hm⟩
  exact c.unmapped (h.trans hf) ((mapped_iff_div c.addr).mpr hm)

theorem least_plain {p : Cidr} {a b : IP} (ha : Plain p a) (hb : Plain p b) :
    Plain p (least a b) ∧ (least a b).addr ≤ a.addr ∧ (least a b).addr ≤ b.addr := by
  have hcmp : networkCmp a.family a.addr a.family.bits b.family b.addr b.family.bits = compare a.addr b.addr := by
    rw [ha.1, hb.1, networkCmp_self_family]
    simp [blockSize]
  simp only [least, hcmp]
  split
  · rename_i hgt
    exact ⟨hb, (compare_gt_iff_gt.mp hgt).le, le_rfl⟩
  · rename_i hle
    exact ⟨ha, le_rfl, compare_le_iff_le.mp hle⟩

section

variable {emptyDigest : String} {k : Key} {p : Cidr} {x y : PoolState}

theorem free_of_free_append {cs ds : List Cidr} {a : ℕ} (h : Free p (cs ++ ds) a) : Free p cs a :=
  ⟨h.1, h.2.1, fun c hc => h.2.2 c (List.mem_append_left _ hc)⟩

theorem blocksIn_append (d : String) (rows rows' : List Row) :
    blocksIn d (rows ++ rows') = blocksIn d rows ++ blocksIn d rows' := by
  simp only [blocksIn, List.filter_append, List.map_append]

theorem FloorsSound.record (h : FloorsSound p x) (r : Row) : FloorsSound p (PoolState.record x p r) := by
  refine ⟨h.named, h.plain, ?_⟩
  intro d f hf ip hip a ha
  simp only [PoolState.record, PoolState.addRow, blocksIn_append] at ha
  exact h.below d f hf ip hip a (free_of_free_append ha)

theorem floorAt_append (floors : List (String × IP)) (d d' : String) (f : IP) :
    floorAt (floors ++ [(d, f)]) d' = (floorAt floors d').or (if d' = d then some f else none) := by
  simp only [floorAt, List.lookup_append]
  by_cases h : d' = d
  · simp [h]
  · simp [List.lookup_cons, beq_false_of_ne h, h]

theorem FloorsSound.seed (h : FloorsSound p x) {d : String} (hd : d ≠ spaceAll) :
    FloorsSound p { x with floors := x.floors ++ [(d, p.ip)] } := by
  have hcases : ∀ d' f, floorAt (x.floors ++ [(d, p.ip)]) d' = some f → floorAt x.floors d' = some f ∨ f = p.ip := by
    intro d' f hf
    rw [floorAt_append, Option.or_eq_some_iff] at hf
    rcases hf with hf | ⟨-, hf⟩
    · exact Or.inl hf
    · split at hf
      · exact Or.inr (Option.some.inj hf).symm
      · cases hf
  refine ⟨?_, ?_, ?_⟩
  · simp [floorAt_append, h.named, Ne.symm hd]
  · intro d' f hf
    rcases hcases d' f hf with hf | rfl
    · exact h.plain d' f hf
    · exact plain_ip rfl
  · intro d' f hf
    rcases hcases d' f hf with hf | rfl
    · exact h.below d' f hf
    · intro ip hip a ha
      obtain rfl := Option.some.inj hip
      rw [Cidr.ipToInt_ip]
      exact ha.1

theorem FloorsSound.raise {d : String} {next : IP} (h : FloorsSound p x) (hd : d ≠ spaceAll) (hplain : Plain p next)
    (hbelow : FloorBelow p (blocksIn d x.rows) (some next)) :
    FloorsSound p { x with floors := setFloorAt x.floors d next } := by
  have hcases : ∀ d' f, floorAt (setFloorAt x.floors d next) d' = some f →
      floorAt x.floors d' = some f ∨ d' = d ∧ f = next := by
    intro d' f hf
    by_cases hdd : d = d'
    · subst hdd
      rw [setFloorAt, floorAt_setFloor, Option.map_eq_some_iff] at hf
      obtain ⟨-, -, rfl⟩ := hf
      exact Or.inr ⟨rfl, rfl⟩
    · rw [setFloorAt, floorAt_setFloor_ne hdd] at hf
      exact Or.inl hf
  refine ⟨?_, ?_, ?_⟩
  · rw [setFloorAt, floorAt_setFloor_ne hd]
    exact h.named
  · intro d' f hf
    rcases hcases d' f hf with hf | ⟨-, rfl⟩
    · exact h.plain d' f hf
    · exact hplain
  · intro d' f hf
    rcases hcases d' f hf with hf | ⟨rfl, rfl⟩
    · exact h.below d' f hf
    · exact hbelow

theorem FloorsSound.step (hm : ¬ p.MeetsMapped) (h : FloorsSound p x) (hstep : PoolStep emptyDigest k p x y) :
    FloorsSound p y := by
  cases hstep with
  | reserve _ _ _ => exact h.record _
  | allocate _ _ _ _ _ => exact h.record _
  | publish _ _ => exact ⟨h.named, h.plain, h.below⟩
  | seedFloor hd _ => exact h.seed hd
  | raiseFloor hd hfloor hplain hnext => exact h.raise hd (hplain hm) (hnext hm (h.below _ _ hfloor))

def Concerns (r : Row) (d : String) : Prop :=
  r.purpose ≠ .claim ∨ r.scopeDigest = d

def Lowered (p : Cidr) (released : List Row) (x y : PoolState) : Prop :=
  ∀ d f, floorAt y.floors d = some f → Plain p f ∧ (∃ f₀, floorAt x.floors d = some f₀ ∧ f.addr ≤ f₀.addr) ∧
    ∀ r ∈ released, Concerns r d → f.addr ≤ r.cidr.addr

theorem FloorsSound.release {released : List Row} {z : PoolState} (h : FloorsSound p x)
    (hkeys : (x.rows.map Row.allocationKey).Nodup) (hremoved : Removed released x y) (hlowered : Lowered p released x y)
    (hsettles : Settles p released y z) : FloorsSound p z := by
  refine ⟨?_, ?_, ?_⟩
  · by_contra hsome
    obtain ⟨f, hf⟩ := Option.ne_none_iff_exists'.mp hsome
    rw [hsettles.floors] at hf
    obtain ⟨-, ⟨f₀, hf₀, -⟩, -⟩ := hlowered _ f hf
    rw [h.named] at hf₀
    cases hf₀
  · intro d f hf
    rw [hsettles.floors] at hf
    exact (hlowered d f hf).1
  · intro d f hf ip hip a ha
    obtain rfl := Option.some.inj hip
    rw [hsettles.floors] at hf
    rw [hsettles.rows] at ha
    obtain ⟨hplain, ⟨f₀, hf₀, hle⟩, hreleased⟩ := hlowered d f hf
    have hd : d ≠ spaceAll := by
      rintro rfl
      rw [h.named] at hf₀
      cases hf₀
    rw [hplain.ipToInt]
    by_cases hfree : Free p (blocksIn d x.rows) a
    · have hbelow := h.below d f₀ hf₀ f₀ rfl a hfree
      rw [(h.plain d f₀ hf₀).ipToInt] at hbelow
      omega
    · -- the address was covered by a row that is gone, so that row was released
      obtain ⟨c, hc, hmem⟩ : ∃ c ∈ blocksIn d x.rows, c.Mem p.family a := by
        by_contra hnone
        push Not at hnone
        exact hfree ⟨ha.1, ha.2.1, hnone⟩
      obtain ⟨o, ho, rfl⟩ := List.mem_map.mp hc
      obtain ⟨ho, hblocks⟩ := List.mem_filter.mp ho
      have hgone : o.allocationKey ∈ released.map Row.allocationKey := by
        by_contra hkept
        have hy : o ∈ y.rows := by
          rw [hremoved.rows]
          exact List.mem_filter.mpr ⟨ho, decide_eq_true hkept⟩
        exact ha.2.2 _ (List.mem_map_of_mem (List.mem_filter.mpr ⟨hy, hblocks⟩)) hmem
      obtain ⟨r, hr, hkey⟩ := List.mem_map.mp hgone
      have hsame : o = r.unclaimed := List.inj_on_of_nodup_map hkeys ho (hremoved.present r hr) hkey.symm
      subst hsame
      have hconcerns : Concerns r d := by
        simp only [Row.blocks, Bool.or_eq_true, decide_eq_true_eq] at hblocks
        rcases hblocks with (hspace | hpurpose) | hdigest
        · exact absurd hspace hd
        · exact Or.inl hpurpose
        · exact Or.inr hdigest
      exact (hreleased r hr hconcerns).trans hmem.2.1

end

end Ipam.Allocator
