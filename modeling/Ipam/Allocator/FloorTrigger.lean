import Ipam.Allocator.Floors

/-!
The trigger that lowers floors, statement by statement. It runs before the release locks the pool and sees only the
floors there are by then, so floors stay sound if none appears between a delete and the lock.
-/

namespace Ipam.Allocator

open Allocation Database Transaction

def setsTo (k : Key) (d : String) : Effect → Option IP
  | .setFloor k' d' f => if k' = k ∧ d' = d then some f else none
  | _ => none

def lastFloor (k : Key) (d : String) (log : List Effect) : Option IP :=
  log.foldl (fun last e => (setsTo k d e).or last) none

theorem lastFloor_append (k : Key) (d : String) (log : List Effect) (e : Effect) :
    lastFloor k d (log ++ [e]) = (setsTo k d e).or (lastFloor k d log) := by
  simp only [lastFloor, List.foldl_append, List.foldl_cons, List.foldl_nil]

section

variable {k : Key} {p : Cidr} {log es : List Effect} {held : List Lock} {c : Db} {done : Row → String → Prop}

theorem floorAt_foldl (hes : ∀ e ∈ es, Effect.SetsFloor k e) (x : PoolState) (d : String) :
    floorAt (es.foldl (fun x e => x.apply k e) x).floors d =
      (floorAt x.floors d).map fun f => (lastFloor k d es).getD f := by
  induction es using List.reverseRecOn with
  | nil => simp [lastFloor]
  | append_singleton es e ih =>
    obtain ⟨d', f, rfl⟩ := hes e (by simp)
    have hstep := ih fun e he => hes e (List.mem_append_left _ he)
    rw [List.foldl_append, lastFloor_append, List.foldl_cons, List.foldl_nil, apply_setFloor]
    by_cases hd : d' = d
    · subst hd
      rw [floorAt_setFloor, hstep]
      simp [setsTo, Function.comp_def]
    · rw [floorAt_setFloor_ne hd, hstep]
      simp [setsTo, hd]

theorem floorOf_view (hlog : ∀ e ∈ log, ∀ x, (PoolState.apply k e x).floors = x.floors)
    (hes : ∀ e ∈ es, Effect.SetsFloor k e) (c : Db) (d : String) :
    (postgres.view (log ++ es) c).floorOf k d = (c.floorOf k d).map fun f => (lastFloor k d es).getD f := by
  have hbase : ((postgres.view log c).poolState k).floors = (c.poolState k).floors := by
    rw [poolState_view]
    generalize c.poolState k = x
    induction log generalizing x with
    | nil => rfl
    | cons e log ih =>
      rw [List.foldl_cons, ih fun e he => hlog e (List.mem_cons_of_mem _ he)]
      exact hlog e List.mem_cons_self x
  rw [floorOf_eq, postgres.view_append, poolState_view, floorAt_foldl hes, hbase]
  rfl

abbrev Floored (k : Key) (p : Cidr) (x : PoolState) : Prop :=
  Counted k p x ∧ FloorsSound p x

structure Tracks (k : Key) (p : Cidr) (es : List Effect) (held : List Lock) (c : Db)
    (done : Row → String → Prop) : Prop where
  inv : Floored k p (c.poolState k)
  deleted : .deleted k ∈ held
  sets : ∀ e ∈ es, Effect.SetsFloor k e
  locked : ∀ d g, lastFloor k d es = some g → .floor k d ∈ held ∧ Plain p g ∧
    ∀ f₀, c.floorOf k d = some f₀ → g.addr ≤ f₀.addr
  low : ∀ r d, done r d → c.floorOf k d = none ∨ ∃ g, lastFloor k d es = some g ∧ g.addr ≤ r.cidr.addr

theorem Tracks.others (h : Tracks k p es held c done) {c' : Db} (hc : Rely true k (Floored k p) held c c') :
    Tracks k p es held c' done := by
  refine ⟨hc.inv, h.deleted, h.sets, ?_, ?_⟩
  · intro d g hg
    obtain ⟨hheld, hplain, hle⟩ := h.locked d g hg
    refine ⟨hheld, hplain, ?_⟩
    intro f₀ hf₀
    rcases hc.agree _ hheld with hsame | hgone
    · exact hle f₀ (hsame ▸ hf₀)
    · rw [hgone] at hf₀
      cases hf₀
  · intro r d hdone
    rcases h.low r d hdone with hnone | hlow
    · exact Or.inl (hc.agree _ h.deleted rfl d hnone)
    · exact Or.inr hlow

theorem Tracks.mono (h : Tracks k p es held c done) {done' : Row → String → Prop}
    (hdone : ∀ r d, done' r d → done r d) : Tracks k p es held c done' :=
  ⟨h.inv, h.deleted, h.sets, h.locked, fun r d hd => h.low r d (hdone r d hd)⟩

theorem Tracks.absent (h : Tracks k p es held c done) {r : Row} {d : String} (hnone : c.floorOf k d = none) :
    Tracks k p es held c (fun r' d' => done r' d' ∨ r' = r ∧ d' = d) := by
  refine ⟨h.inv, h.deleted, h.sets, h.locked, ?_⟩
  rintro r' d' (hdone | ⟨-, rfl⟩)
  · exact h.low r' d' hdone
  · exact Or.inl hnone

theorem Tracks.lower (h : Tracks k p es held c done) {r : Row} (hr : Plain p r.cidr.ip) {d : String} {f₀ : IP}
    (hf₀ : c.floorOf k d = some f₀) :
    Tracks k p (es ++ [.setFloor k d (least ((lastFloor k d es).getD f₀) r.cidr.ip)]) (held ++ [.floor k d]) c
      (fun r' d' => done r' d' ∨ r' = r ∧ d' = d) := by
  have hcurrent : Plain p ((lastFloor k d es).getD f₀) ∧ ((lastFloor k d es).getD f₀).addr ≤ f₀.addr := by
    cases hg : lastFloor k d es with
    | none => exact ⟨h.inv.2.plain d f₀ hf₀, le_rfl⟩
    | some g =>
      obtain ⟨-, hplain, hle⟩ := h.locked d g hg
      exact ⟨hplain, hle f₀ hf₀⟩
  obtain ⟨hplain, hle, hler⟩ := least_plain hcurrent.1 hr
  have hlast : ∀ d', lastFloor k d' (es ++ [.setFloor k d (least ((lastFloor k d es).getD f₀) r.cidr.ip)]) =
      if d = d' then some (least ((lastFloor k d es).getD f₀) r.cidr.ip) else lastFloor k d' es := by
    intro d'
    rw [lastFloor_append]
    by_cases hd : d = d'
    · simp [setsTo, hd]
    · simp [setsTo, hd]
  refine ⟨h.inv, List.mem_append_left _ h.deleted, ?_, ?_, ?_⟩
  · intro e he
    rcases List.mem_append.mp he with he | he
    · exact h.sets e he
    · exact ⟨d, _, List.mem_singleton.mp he⟩
  · intro d' g hg
    rw [hlast] at hg
    split at hg
    · rename_i hd
      subst hd
      obtain rfl := Option.some.inj hg
      refine ⟨List.mem_append_right _ List.mem_cons_self, hplain, ?_⟩
      intro f hf
      obtain rfl := Option.some.inj (hf₀.symm.trans hf)
      exact hle.trans hcurrent.2
    · obtain ⟨hheld, hrest⟩ := h.locked d' g hg
      exact ⟨List.mem_append_left _ hheld, hrest⟩
  · intro r' d' hdone
    rw [hlast]
    by_cases hd : d = d'
    · subst hd
      refine Or.inr ⟨_, if_pos rfl, ?_⟩
      rcases hdone with hdone | ⟨rfl, -⟩
      · rcases h.low r' d hdone with hnone | ⟨g, hg, hlow⟩
        · rw [hf₀] at hnone
          cases hnone
        · rw [hg] at hle ⊢
          exact hle.trans hlow
      · exact hler
    · rw [if_neg hd]
      rcases hdone with hdone | ⟨-, rfl⟩
      · exact h.low r' d' hdone
      · exact absurd rfl hd

theorem exec_lowerFloor_none {s : Db} {d : String} (a : IP) (h : s.floorOf k d = none) :
    postgres.exec (.lowerFloor k d a) s = .ok ((), []) ∧ postgres.locks (.lowerFloor k d a) s = [] := by
  have hfloor : floorAt (s.poolFloors k) d = none := h
  have hexec : exec (.lowerFloor k d a) s = .ok ((), []) := by simp only [exec, hfloor]
  have hlocks : locks (.lowerFloor k d a) s = [] := by simp [locks, hfloor]
  exact ⟨hexec, hlocks⟩

theorem exec_lowerFloor_some {s : Db} {d : String} {f : IP} (a : IP) (h : s.floorOf k d = some f) :
    postgres.exec (.lowerFloor k d a) s = .ok ((), [.setFloor k d (least f a)]) ∧
      postgres.locks (.lowerFloor k d a) s = [.floor k d] := by
  have hfloor : floorAt (s.poolFloors k) d = some f := h
  have hexec : exec (.lowerFloor k d a) s = .ok ((), [.setFloor k d (least f a)]) := by simp only [exec, hfloor]
  have hlocks : locks (.lowerFloor k d a) s = [.floor k d] := by simp [locks, hfloor]
  exact ⟨hexec, hlocks⟩

variable (hlog : ∀ e ∈ log, ∀ x, (PoolState.apply k e x).floors = x.floors)

include hlog

theorem lowerFloor_tracks (h : Tracks k p es held c done) {r : Row} (hr : Plain p r.cidr.ip) (d : String) :
    postgres.wp (Rely true k (Floored k p))
      (fun _ log' held' c' => ∃ es', log' = log ++ es' ∧
        Tracks k p es' held' c' fun r' d' => done r' d' ∨ r' = r ∧ d' = d)
      (fun _ _ _ _ => True) (send (.lowerFloor k d r.cidr.ip)) (log ++ es) held c := by
  intro c' hc'
  have h' := h.others hc'
  have hview := floorOf_view hlog h.sets c' d
  cases hfloor : c'.floorOf k d with
  | none =>
    rw [hfloor, Option.map_none] at hview
    obtain ⟨hexec, hlocks⟩ := exec_lowerFloor_none r.cidr.ip hview
    rw [hexec]
    refine ⟨es, List.append_nil _, ?_⟩
    rw [hlocks, List.append_nil]
    exact h'.absent hfloor
  | some f₀ =>
    rw [hfloor, Option.map_some] at hview
    obtain ⟨hexec, hlocks⟩ := exec_lowerFloor_some r.cidr.ip hview
    rw [hexec]
    refine ⟨_, List.append_assoc _ _ _, ?_⟩
    rw [hlocks]
    exact h'.lower hr hfloor

theorem lowerFloors_tracks (h : Tracks k p es held c done) {r : Row} (hr : Plain p r.cidr.ip) (ds : List String) :
    postgres.wp (Rely true k (Floored k p))
      (fun _ log' held' c' => ∃ es', log' = log ++ es' ∧
        Tracks k p es' held' c' fun r' d' => done r' d' ∨ r' = r ∧ d' ∈ ds)
      (fun _ _ _ _ => True) (sendAll (fun d => send (.lowerFloor k d r.cidr.ip)) ds) (log ++ es) held c := by
  induction ds generalizing es held c done with
  | nil => exact ⟨es, rfl, h.mono fun r' d' hd => by simpa using hd⟩
  | cons d ds ih =>
    apply Database.wp_bind
    apply Database.wp_mono (lowerFloor_tracks hlog h hr d) _ fun _ _ _ _ h => h
    rintro _ _ held' c' ⟨es', rfl, htracks⟩
    apply Database.wp_mono (ih htracks) _ fun _ _ _ _ h => h
    rintro _ _ held'' c'' ⟨es'', rfl, htracks'⟩
    refine ⟨es'', rfl, htracks'.mono ?_⟩
    rintro r' d' (hdone | ⟨rfl, hd⟩)
    · exact Or.inl (Or.inl hdone)
    · rcases List.mem_cons.mp hd with rfl | hd
      · exact Or.inl (Or.inr ⟨rfl, rfl⟩)
      · exact Or.inr ⟨rfl, hd⟩

theorem lowerSearchFloor_tracks (h : Tracks k p es held c done) {r : Row} (hk : r.poolKey = k)
    (hr : Plain p r.cidr.ip) :
    postgres.wp (Rely true k (Floored k p))
      (fun _ log' held' c' => ∃ es', log' = log ++ es' ∧
        Tracks k p es' held' c' fun r' d' => done r' d' ∨ r' = r ∧ Concerns r d')
      (fun _ _ _ _ => True) (lowerSearchFloor r) (log ++ es) held c := by
  subst hk
  intro c' hc'
  obtain ⟨ds, hds⟩ : ∃ ds, (((postgres.view (log ++ es) c').poolFloors r.poolKey).map Prod.fst).filter
      (fun d => decide (r.purpose ≠ .claim) || decide (d = r.scopeDigest)) = ds := ⟨_, rfl⟩
  -- a floor of the space that the trigger does not see is absent, and stays so
  have habsent : ∀ d, Concerns r d → d ∉ ds → c'.floorOf r.poolKey d = none := by
    intro d hconcerns hd
    by_contra hsome
    obtain ⟨f, hf⟩ := Option.ne_none_iff_exists'.mp hsome
    have hview := floorOf_view hlog h.sets c' d
    rw [hf, Option.map_some] at hview
    obtain ⟨l₁, l₂, hmem, -⟩ := List.lookup_eq_some_iff.mp hview
    apply hd
    rw [← hds, List.mem_filter]
    constructor
    · rw [hmem]
      simp
    · rcases hconcerns with hpurpose | hdigest
      · simp [hpurpose]
      · simp [hdigest]
  have hstart : Tracks r.poolKey p es held c' fun r' d' => done r' d' ∨ r' = r ∧ Concerns r d' ∧ d' ∉ ds := by
    have h' := h.others hc'
    refine ⟨h'.inv, h'.deleted, h'.sets, h'.locked, ?_⟩
    rintro r' d' (hdone | ⟨rfl, hconcerns, hd⟩)
    · exact h'.low r' d' hdone
    · exact Or.inl (habsent d' hconcerns hd)
  suffices hloop : postgres.wp (Rely true r.poolKey (Floored r.poolKey p))
      (fun _ log' held' c' => ∃ es', log' = log ++ es' ∧
        Tracks r.poolKey p es' held' c' fun r' d' => done r' d' ∨ r' = r ∧ Concerns r d')
      (fun _ _ _ _ => True) (sendAll (fun d => send (.lowerFloor r.poolKey d r.cidr.ip)) ds) (log ++ es ++ [])
      (held ++ []) c' by
    rw [← hds] at hloop
    exact hloop
  rw [List.append_nil, List.append_nil]
  apply Database.wp_mono (lowerFloors_tracks hlog hstart hr ds) _ fun _ _ _ _ h => h
  rintro _ _ held' c'' ⟨es', rfl, htracks⟩
  refine ⟨es', rfl, htracks.mono ?_⟩
  rintro r' d' (hdone | ⟨rfl, hconcerns⟩)
  · exact Or.inl (Or.inl hdone)
  · by_cases hd : d' ∈ ds
    · exact Or.inr ⟨rfl, hd⟩
    · exact Or.inl (Or.inr ⟨rfl, hconcerns, hd⟩)

theorem lowerSearchFloors_tracks {released : List Row} (hk : ∀ r ∈ released, r.poolKey = k)
    (hr : ∀ r ∈ released, Plain p r.cidr.ip) (h : Tracks k p es held c done) :
    postgres.wp (Rely true k (Floored k p))
      (fun _ log' held' c' => ∃ es', log' = log ++ es' ∧
        Tracks k p es' held' c' fun r d => done r d ∨ r ∈ released ∧ Concerns r d)
      (fun _ _ _ _ => True) (sendAll lowerSearchFloor released) (log ++ es) held c := by
  induction released generalizing es held c done with
  | nil => exact ⟨es, rfl, h.mono fun r' d' hd => by simpa using hd⟩
  | cons r rest ih =>
    apply Database.wp_bind
    apply Database.wp_mono (lowerSearchFloor_tracks hlog h (hk r List.mem_cons_self) (hr r List.mem_cons_self)) _
      fun _ _ _ _ h => h
    rintro _ _ held' c' ⟨es', rfl, htracks⟩
    apply Database.wp_mono (ih (fun r hr' => hk r (List.mem_cons_of_mem _ hr'))
      (fun r hr' => hr r (List.mem_cons_of_mem _ hr')) htracks) _ fun _ _ _ _ h => h
    rintro _ _ held'' c'' ⟨es'', rfl, htracks'⟩
    refine ⟨es'', rfl, htracks'.mono ?_⟩
    rintro r' d' (hdone | ⟨hmem, hconcerns⟩)
    · exact Or.inl (Or.inl hdone)
    · rcases List.mem_cons.mp hmem with rfl | hmem
      · exact Or.inl (Or.inr ⟨rfl, hconcerns⟩)
      · exact Or.inr ⟨hmem, hconcerns⟩

theorem Tracks.lowered {released : List Row}
    (h : Tracks k p es held c fun r d => r ∈ released ∧ Concerns r d) :
    Lowered p released (c.poolState k) ((postgres.view (log ++ es) c).poolState k) := by
  intro d f hf
  have hview := floorOf_view hlog h.sets c d
  rw [floorOf_eq, hf, eq_comm, Option.map_eq_some_iff] at hview
  obtain ⟨f₀, hf₀, hlast⟩ := hview
  cases hg : lastFloor k d es with
  | none =>
    rw [hg, Option.getD_none] at hlast
    subst hlast
    refine ⟨h.inv.2.plain d f₀ hf₀, ⟨f₀, hf₀, le_rfl⟩, ?_⟩
    intro r hr hconcerns
    rcases h.low r d ⟨hr, hconcerns⟩ with hnone | ⟨g, hg', -⟩
    · rw [hf₀] at hnone
      cases hnone
    · rw [hg] at hg'
      cases hg'
  | some g =>
    rw [hg, Option.getD_some] at hlast
    subst hlast
    obtain ⟨-, hplain, hle⟩ := h.locked d g hg
    refine ⟨hplain, ⟨f₀, hf₀, hle f₀ hf₀⟩, ?_⟩
    intro r hr hconcerns
    rcases h.low r d ⟨hr, hconcerns⟩ with hnone | ⟨g', hg', hlow⟩
    · rw [hf₀] at hnone
      cases hnone
    · obtain rfl := Option.some.inj (hg.symm.trans hg')
      exact hlow

end

section

variable (emptyDigest : String) (k : Key) {p : Cidr} (hm : ¬ p.MeetsMapped)

include hm

theorem lowers_floors : Lowers true k p (Floored k p) (Lowered p) := by
  intro released log held c hreleased hc hdeleted hlog
  have hplain : ∀ r ∈ released, Plain p r.cidr.ip := by
    intro r hr
    exact plain_ip ((Cidr.within_iff _ _).mp ((hreleased r hr).2.within hm)).1
  have hemits : Emits postgres (Effect.SetsFloor k) (sendAll lowerSearchFloor released) :=
    emits_sendAll fun r hr => (hreleased r hr).1 ▸ lowerSearchFloor_emits r
  have hstart : Tracks k p [] held c fun _ _ => False :=
    ⟨hc, hdeleted, by simp, by simp [lastFloor], fun _ _ h => h.elim⟩
  have htracks := lowerSearchFloors_tracks hlog (fun r hr => (hreleased r hr).1) hplain hstart
  rw [List.append_nil] at htracks
  apply Database.wp_mono (Database.wp_and ((rowLocking true).wp_emits hemits hc) htracks) _ fun _ _ _ _ h => h
  rintro _ _ held' c' ⟨hextends, es, rfl, htracks⟩
  refine ⟨hextends, ?_⟩
  intro c'' hc''
  exact Tracks.lowered hlog ((htracks.mono fun _ _ h => Or.inr h).others hc'')

theorem floored_kept : Kept true emptyDigest k p (Floored k p) (Lowered p) where
  based := fun _ h => h.1.based
  steps := fun _ _ h hsteps _ =>
    ⟨hsteps.preserves (fun _ _ h hs => h.step hs) h.1, hsteps.preserves (fun _ _ h hs => h.step hm hs) h.2⟩
  lowers := lowers_floors k hm
  release := fun _ _ _ _ _ hpast hreleased h hremoved hlowered hsettles =>
    ⟨hpast.1.release hreleased h.1 hremoved hsettles, h.2.release h.1.keys hremoved hlowered hsettles⟩

end

def KeepsApart (w : World Stmt Res Err Db Effect Lock) : Label Stmt Res Err → Prop
  | .exec t =>
    match w.find t with
    | some ⟨.step q _, log, _⟩ => w.blocked Lock.crosses t (locks q (postgres.view log w.committed)) = false
    | _ => True
  | _ => True

theorem blocked_conflictsWith (w : World Stmt Res Err Db Effect Lock) (t : ℕ) (need : List Lock) :
    w.blocked (Lock.conflictsWith true) t need = (w.blocked Lock.conflicts t need || w.blocked Lock.crosses t need) := by
  rw [Bool.eq_iff_iff]
  simp only [World.blocked, List.any_eq_true, Bool.and_eq_true, Bool.or_eq_true, Lock.conflictsWith, Bool.true_and]
  constructor
  · rintro ⟨y, hy, ht, l, hl, m, hm, h | h⟩
    · exact Or.inl ⟨y, hy, ht, l, hl, m, hm, h⟩
    · exact Or.inr ⟨y, hy, ht, l, hl, m, hm, h⟩
  · rintro (⟨y, hy, ht, l, hl, m, hm, h⟩ | ⟨y, hy, ht, l, hl, m, hm, h⟩)
    · exact ⟨y, hy, ht, l, hl, m, hm, Or.inl h⟩
    · exact ⟨y, hy, ht, l, hl, m, hm, Or.inr h⟩

theorem next_strict {w w' : World Stmt Res Err Db Effect Lock} {l : Label Stmt Res Err} (hapart : KeepsApart w l)
    (h : w.next postgres Lock.conflicts l = some w') : w.next postgres (Lock.conflictsWith true) l = some w' := by
  cases l with
  | exec t =>
    simp only [World.next, KeepsApart] at h hapart ⊢
    split at h
    · rename_i q f log held hfind
      simp only [hfind] at hapart ⊢
      rw [blocked_conflictsWith]
      have hapart' : w.blocked Lock.crosses t (postgres.locks q (postgres.view log w.committed)) = false := hapart
      rw [hapart', Bool.or_false]
      exact h
    · cases h
  | start t p => exact h
  | commit t => exact h
  | abort t => exact h

theorem reachable_strict {allowed : Tx Unit → Prop} {init : Db} {w : World Stmt Res Err Db Effect Lock}
    (h : Reachable postgres Lock.conflicts allowed KeepsApart init w) :
    Reachable postgres (Lock.conflictsWith true) allowed (fun _ _ => True) init w := by
  induction h with
  | start => exact .start
  | step _ hallowed hguard hnext ih => exact .step ih hallowed trivial (next_strict hguard hnext)

theorem Fresh.floored {k : Key} {p : Cidr} {s : Db} (h : Fresh k p s) : Floored k p (s.poolState k) := by
  have hnone : ∀ d, floorAt (s.poolState k).floors d = none := by
    intro d
    have hfloors : (s.poolState k).floors = [] := h.floors
    rw [hfloors]
    rfl
  refine ⟨h.counted.1, hnone _, ?_, ?_⟩
  · intro d f hf
    rw [hnone] at hf
    cases hf
  · intro d f hf
    rw [hnone] at hf
    cases hf

/-- In every run whose steps keep deletes and seeds apart, every address below a committed floor is held in the
floor's space. -/
theorem floor_committed (emptyDigest : String) (k : Key) (p : Cidr) (hm : ¬ p.MeetsMapped) (init : Db)
    (hinit : Fresh k p init) (w : World Stmt Res Err Db Effect Lock)
    (hw : Reachable postgres Lock.conflicts (PoolTxn emptyDigest) KeepsApart init w) (d : String) (f : IP)
    (hf : w.committed.floorOf k d = some f) :
    f.family = p.family ∧ ∀ a, p.Mem p.family a → a < f.addr →
      ∃ r ∈ w.committed.rows, r.poolKey = k ∧ (r.purpose ≠ .claim ∨ r.scopeDigest = d) ∧ r.cidr.Mem p.family a := by
  have hsound := ((floored_kept emptyDigest k hm).reachable hinit.floored (reachable_strict hw)).2
  have hplain := hsound.plain d f hf
  refine ⟨hplain.1, ?_⟩
  rintro a ⟨-, hlo, hhi⟩ hlt
  by_contra hnone
  push Not at hnone
  have hfree : Free p (blocksIn d (w.committed.poolState k).rows) a := by
    refine ⟨hlo, hhi, ?_⟩
    intro c hc hmem
    have hd : d ≠ spaceAll := by
      rintro rfl
      have hnamed := hsound.named
      rw [← floorOf_eq, hf] at hnamed
      cases hnamed
    obtain ⟨r, hr, hk, hblocks, rfl⟩ := (mem_blocksIn hd).mp hc
    exact hnone r hr hk hblocks hmem
  have hle := hsound.below d f hf f rfl a hfree
  rw [hplain.ipToInt] at hle
  omega

theorem keepsApart_alone {w : World Stmt Res Err Db Effect Lock} (t : ℕ) (h : w.txns.length = 1) :
    KeepsApart w (.exec t) := by
  obtain ⟨y, hy⟩ := List.length_eq_one_iff.mp h
  simp only [KeepsApart]
  split
  · rename_i hfind
    have hmem := w.mem_of_find hfind
    rw [hy, List.mem_singleton] at hmem
    simp [World.blocked, hy, ← hmem]
  · trivial

def childKey : Key := .object "infra" .ippools "" "child"

def carveTxn : Tx Unit := (carveFromPool "none" officeKey 28 ⟨childKey, "child"⟩).void

def searchTxn : Tx Unit := (allocatePrefix "none" (claimOf officeKey "a" "tenant" 28)).void

def releaseTxn : Tx Unit := releaseAllocation childKey

theorem floor_committed_office :
    ∃ (w : World Stmt Res Err Db Effect Lock) (f : IP), w.committed.floorOf officeKey "tenant" = some f ∧
      f.addr = 10 * 2 ^ 24 + 16 ∧ f.family = officePool.family ∧
      ∀ a, officePool.Mem officePool.family a → a < f.addr → ∃ r ∈ w.committed.rows, r.poolKey = officeKey ∧
        (r.purpose ≠ .claim ∨ r.scopeDigest = "tenant") ∧ r.cidr.Mem officePool.family a := by
  have hallowed : ∀ p ∈ [carveTxn, searchTxn], PoolTxn "none" p := by
    simp only [List.forall_mem_cons]
    exact ⟨.carveFromPool _ _ _, .allocatePrefix _, by simp⟩
  have hreach : ∃ w, Reachable postgres Lock.conflicts (PoolTxn "none") KeepsApart
      (poolDb officeKey officePool .firstFit) w ∧
        decide ((w.committed.floorOf officeKey "tenant").map IP.addr = some (10 * 2 ^ 24 + 16)) = true :=
    Reachable.exists_of_runAll
      (f := fun s : Db => decide ((s.floorOf officeKey "tenant").map IP.addr = some (10 * 2 ^ 24 + 16)))
      (fun _ t h => keepsApart_alone t h) (fun _ _ _ => trivial) (fun _ _ _ => trivial) hallowed (by decide +kernel)
  obtain ⟨w, hw, hdecide⟩ := hreach
  obtain ⟨f, hf, haddr⟩ := Option.map_eq_some_iff.mp (of_decide_eq_true hdecide)
  exact ⟨w, f, hf, haddr, floor_committed "none" officeKey officePool (by decide) _ (poolDb_fresh _ _ _) w hw
    "tenant" f hf⟩

def execs (t n : ℕ) : List (Label Stmt Res Err) :=
  List.replicate n (.exec t)

/-- A search seeds a floor and raises it over a carve; before it commits, a release deletes the carve and runs the
trigger, which does not see the floor. -/
def racingLabels : List (Label Stmt Res Err) :=
  .start 0 carveTxn :: execs 0 9 ++ .commit 0 :: .start 1 searchTxn :: execs 1 12 ++
    .start 2 releaseTxn :: execs 2 2 ++ .commit 1 :: execs 2 5 ++ [.commit 2]

theorem racingLabels_allowed (t : ℕ) (p : Tx Unit) (h : Label.start t p ∈ racingLabels) : PoolTxn "none" p := by
  simp only [racingLabels, execs, List.replicate, List.cons_append, List.nil_append, List.mem_cons,
    Label.start.injEq, reduceCtorEq, false_or, or_false, List.not_mem_nil] at h
  rcases h with ⟨-, rfl⟩ | ⟨-, rfl⟩ | ⟨-, rfl⟩
  · exact .carveFromPool _ _ _
  · exact .allocatePrefix _
  · exact .releaseAllocation _

def LostBelow (s : Db) : Prop :=
  (s.floorOf officeKey "tenant").map IP.addr = some (officePool.addr + 16) ∧
    ¬ ∃ r ∈ s.rows, r.poolKey = officeKey ∧ (r.purpose ≠ .claim ∨ r.scopeDigest = "tenant") ∧
      r.cidr.Mem officePool.family officePool.addr

instance : DecidablePred LostBelow :=
  fun _ => inferInstanceAs (Decidable (_ ∧ ¬ _))

theorem floor_racing_fails :
    ∃ w, Reachable postgres Lock.conflicts (PoolTxn "none") (fun _ _ => True) (poolDb officeKey officePool .firstFit) w ∧
      LostBelow w.committed := by
  have hreach : ∃ w, Reachable postgres Lock.conflicts (PoolTxn "none") (fun _ _ => True)
      (poolDb officeKey officePool .firstFit) w ∧ decide (LostBelow w.committed) = true :=
    Reachable.exists_of_steps (f := fun s : Db => decide (LostBelow s)) (fun _ _ _ => trivial) racingLabels_allowed
      (by decide +kernel)
  obtain ⟨w, hw, hlost⟩ := hreach
  exact ⟨w, hw, of_decide_eq_true hlost⟩

end Ipam.Allocator
