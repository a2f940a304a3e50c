import Ipam.Lib.Chains
import Ipam.Registry.ClassProvenance

namespace Ipam.Registry

open Allocation Allocator Cascade Database Transaction Chains

abbrev Catalogue := String × String → Option IPClass

def catalogue (s : Db) : Catalogue :=
  fun k => s.class_ (classStorageKey k.1 k.2)

namespace Catalogue

variable (C : Catalogue)

def definition (k : String × String) : Option IPClass :=
  (C k).filter fun c => c.source.isNone

def standsFor (k : String × String) : String × String :=
  ((C k).bind IPClass.source).getD k

def parentKey (k : String × String) : Option (String × String) :=
  (C.definition k).bind fun c => c.parentClassName.map fun name => C.standsFor (k.1, name)

def Defines (k : String × String) : Prop :=
  (C.definition k).isSome = true

def Shallow : Prop :=
  Bounded C.parentKey C.Defines maxClassChainDepth

def IsRoot (k : String × String) : Prop :=
  ∃ c, C.definition k = some c ∧ c.parentClassName = none

variable {C} {C' : Catalogue} {k : String × String} {c : IPClass}

theorem definition_eq_some : C.definition k = some c ↔ C k = some c ∧ c.source = none := by
  simp [definition, Option.filter_eq_some_iff]

theorem defines_of_parentKey {b : String × String} (h : C.parentKey k = some b) : C.Defines k := by
  obtain ⟨c, hc, -⟩ := Option.bind_eq_some_iff.mp h
  exact Option.isSome_iff_exists.mpr ⟨c, hc⟩

theorem parentKey_eq {name : String} (h : C.definition k = some c) (hname : c.parentClassName = some name) :
    C.parentKey k = some (C.standsFor (k.1, name)) := by
  simp [parentKey, h, hname]

theorem Shallow.rooted (h : C.Shallow)
    (hall : ∀ n b, climb C.parentKey n k = some b → C.Defines b) :
    ∃ n ≤ maxClassChainDepth, ∃ r, climb C.parentKey n k = some r ∧ C.IsRoot r := by
  by_contra hnone
  have hup : ∀ n ≤ maxClassChainDepth + 1, ∃ b, climb C.parentKey n k = some b := by
    intro n
    induction n with
    | zero => exact fun _ => ⟨k, rfl⟩
    | succ n ih =>
      intro hn
      obtain ⟨b, hb⟩ := ih (by omega)
      obtain ⟨c, hc⟩ := Option.isSome_iff_exists.mp (hall n b hb)
      cases hparent : c.parentClassName with
      | none => exact absurd ⟨n, by omega, b, hb, c, hc, hparent⟩ hnone
      | some name =>
        refine ⟨C.standsFor (b.1, name), ?_⟩
        rw [climb_last, hb]
        exact parentKey_eq hc hparent
  obtain ⟨b, hb⟩ := hup _ le_rfl
  have := h _ k b hb (hall _ b hb)
  omega

theorem Shallow.sub (h : C.Shallow) (hsub : ∀ k c, C' k = some c → ∃ old, C k = some old ∧ c.source = old.source ∧
    c.parentClassName = old.parentClassName) : C'.Shallow := by
  have hdef : ∀ k c, C'.definition k = some c →
      ∃ old, C.definition k = some old ∧ c.parentClassName = old.parentClassName := by
    intro k c hc
    obtain ⟨hc, hsource⟩ := definition_eq_some.mp hc
    obtain ⟨old, hold, hsame, hparent⟩ := hsub k c hc
    exact ⟨old, definition_eq_some.mpr ⟨hold, hsame.symm.trans hsource⟩, hparent⟩
  apply Bounded.mono h
  · intro a ha
    obtain ⟨c, hc⟩ := Option.isSome_iff_exists.mp ha
    obtain ⟨old, hold, -⟩ := hdef a c hc
    exact Option.isSome_iff_exists.mpr ⟨old, hold⟩
  · exact fun a b hb => defines_of_parentKey hb
  · intro a b hb hdefines
    obtain ⟨c, hc, hname⟩ := Option.bind_eq_some_iff.mp hb
    obtain ⟨name, hsome, rfl⟩ := Option.map_eq_some_iff.mp hname
    obtain ⟨old, hold, hparent⟩ := hdef a c hc
    rw [parentKey_eq hold (hparent.symm.trans hsome)]
    congr 1
    cases hmid : C' (a.1, name) with
    | none =>
      -- the name stands for itself, and there is no such class
      have hself : C'.standsFor (a.1, name) = (a.1, name) := by simp [standsFor, hmid]
      rw [hself] at hdefines
      simp [Defines, definition, hmid] at hdefines
    | some mid =>
      obtain ⟨old', hold', hsource, -⟩ := hsub _ mid hmid
      simp [standsFor, hmid, hold', hsource]

/-- The classes whose parent links a new class gives a target: itself, or those that name the new reference. -/
def Gate (C : Catalogue) (k : String × String) (c : IPClass) (d : String × String) : Prop :=
  match c.source with
  | none => d = k
  | some _ => d.1 = k.1 ∧ ∃ old, C.definition d = some old ∧ old.parentClassName = some k.2

def onward (C : Catalogue) (k : String × String) (c : IPClass) : Option (String × String) :=
  match c.source with
  | none => c.parentClassName.map fun name => C.standsFor (k.1, name)
  | some src => some src

structure Fits (C : Catalogue) (k : String × String) (c : IPClass) : Prop where
  below : c.source = none → ∀ n a, climb C.parentKey n a = some k → n ≤ maxClassChainDepth
  apart : ∀ u, C.onward k c = some u → ∀ n g, C.Gate k c g → climb C.parentKey n u ≠ some g
  short : ∀ u, C.onward k c = some u → ∀ m n a g b, C.Gate k c g → climb C.parentKey m a = some g →
    climb C.parentKey n u = some b → C.Defines b → m + 1 + n ≤ maxClassChainDepth

theorem standsFor_update (d : String × String) :
    standsFor (Function.update C k (some c)) d = if d = k then c.source.getD k else C.standsFor d := by
  by_cases hd : d = k
  · subst hd
    simp [standsFor]
  · simp [standsFor, hd]

section

variable (hk : C k = none)
include hk

theorem definition_absent : C.definition k = none := by
  simp [definition, hk]

theorem definition_update (d : String × String) :
    definition (Function.update C k (some c)) d =
      if d = k ∧ c.source = none then some c else C.definition d := by
  by_cases hd : d = k
  · subst hd
    cases hsource : c.source with
    | none => simp [definition, hsource]
    | some src => simp [definition, hsource, hk]
  · simp [definition, hd]

theorem defines_update (d : String × String) :
    Defines (Function.update C k (some c)) d ↔ (d = k ∧ c.source = none) ∨ C.Defines d := by
  unfold Defines
  rw [definition_update hk]
  by_cases h : d = k ∧ c.source = none
  · simp [h]
  · simp [h]

theorem rewired_definition (hsource : c.source = none) :
    Rewired C.parentKey (parentKey (Function.update C k (some c))) (C.Gate k c) (C.onward k c) := by
  have hstands : ∀ d, standsFor (Function.update C k (some c)) d = C.standsFor d := by
    intro d
    rw [standsFor_update]
    split
    · rename_i hd
      subst hd
      simp [standsFor, hk, hsource]
    · rfl
  have hgate : ∀ d, C.Gate k c d ↔ d = k := fun d => by simp [Gate, hsource]
  refine ⟨?_, ?_, ?_⟩
  · intro d hd
    rw [hgate] at hd
    simp [parentKey, definition_update hk, hd, hstands]
  · intro d hd
    obtain rfl := (hgate d).mp hd
    simp [parentKey, definition_update hk, hsource, hstands, onward]
  · intro d b hd hb
    obtain rfl := (hgate d).mp hd
    simp [parentKey, definition_absent hk] at hb

theorem rewired_reference {src : String × String} (hsource : c.source = some src) :
    Rewired C.parentKey (parentKey (Function.update C k (some c))) (C.Gate k c) (C.onward k c) := by
  have hdef : ∀ d, definition (Function.update C k (some c)) d = C.definition d := by
    intro d
    rw [definition_update hk, if_neg (by simp [hsource])]
  have hgate : ∀ d, C.Gate k c d ↔
      d.1 = k.1 ∧ ∃ old, C.definition d = some old ∧ old.parentClassName = some k.2 :=
    fun d => by simp [Gate, hsource]
  refine ⟨?_, ?_, ?_⟩
  · intro d hd
    simp only [parentKey, hdef]
    cases hold : C.definition d with
    | none => rfl
    | some old =>
      cases hname : old.parentClassName with
      | none => simp [hname]
      | some name =>
        have hne : (d.1, name) ≠ k := by
          rintro rfl
          exact hd ((hgate d).mpr ⟨rfl, old, hold, hname⟩)
        simp [hname, standsFor_update, hne]
  · intro d hd
    obtain ⟨hproject, old, hold, hname⟩ := (hgate d).mp hd
    have hkey : (d.1, k.2) = k := by rw [hproject]
    simp [parentKey, hdef, hold, hname, hkey, standsFor_update, onward, hsource]
  · intro d b hd hb
    obtain ⟨hproject, old, hold, hname⟩ := (hgate d).mp hd
    have hkey : (d.1, k.2) = k := by rw [hproject]
    rw [parentKey_eq hold hname, hkey] at hb
    obtain rfl : k = b := by simpa [standsFor, hk] using hb
    constructor
    · rw [hgate]
      rintro ⟨-, old', hold', -⟩
      rw [definition_absent hk] at hold'
      cases hold'
    · simp [parentKey, definition_absent hk]

theorem rewired_update :
    Rewired C.parentKey (parentKey (Function.update C k (some c))) (C.Gate k c) (C.onward k c) := by
  cases hsource : c.source with
  | none => exact rewired_definition hk hsource
  | some src => exact rewired_reference hk hsource

theorem gate_defines {d : String × String} (hd : C.Gate k c d) : Defines (Function.update C k (some c)) d := by
  rw [defines_update hk]
  cases hsource : c.source with
  | none =>
    rw [Gate, hsource] at hd
    exact Or.inl ⟨hd, rfl⟩
  | some src =>
    rw [Gate, hsource] at hd
    obtain ⟨-, old, hold, -⟩ := hd
    exact Or.inr (Option.isSome_iff_exists.mpr ⟨old, hold⟩)

theorem shallow_update_iff (hC : C.Shallow) : Shallow (Function.update C k (some c)) ↔ C.Fits k c := by
  have hself : c.source = none → C.Gate k c k := fun hsource => by rw [Gate, hsource]
  rw [Shallow, (rewired_update hk).bounded_iff fun g => gate_defines hk]
  constructor
  · rintro ⟨hfree, hgates⟩
    refine ⟨?_, fun u hu => (hgates u hu).1, ?_⟩
    · intro hsource n a hn
      exact hfree n a k hn ((rewired_update hk).free_before hn (hself hsource))
        ((defines_update hk k).mpr (Or.inl ⟨rfl, hsource⟩))
    · intro u hu m n a g b hg hm hn hb
      exact (hgates u hu).2 m n a g b hg hm hn ((defines_update hk b).mpr (Or.inr hb))
  · intro h
    refine ⟨?_, fun u hu => ⟨h.apart u hu, ?_⟩⟩
    · intro n a b hn _ hb
      rcases (defines_update hk b).mp hb with ⟨rfl, hsource⟩ | hb
      · exact h.below hsource n a hn
      · exact hC n a b hn hb
    · intro m n a g b hg hm hn hb
      rcases (defines_update hk b).mp hb with ⟨rfl, hsource⟩ | hb
      · exact absurd hn (h.apart u hu n b (hself hsource))
      · exact h.short u hu m n a g b hg hm hn hb

end

end Catalogue

section

variable {s : Db}

theorem run_loadClassIn (k : String × String) :
    postgres.run (loadClassIn k.1 k.2) s =
      match catalogue s k with
      | some c => .ok (c, s)
      | none => .error .classNotFound := by
  have hclass : catalogue s k = asClass (s.object (classStorageKey k.1 k.2)) := by
    simp only [catalogue, Db.class_]
    cases s.object (classStorageKey k.1 k.2) with
    | none => rfl
    | some o => cases o <;> rfl
  rw [hclass]
  change postgres.run (Prog.ofOption .classNotFound (asClass (s.object (classStorageKey k.1 k.2)))) s = _
  cases asClass (s.object (classStorageKey k.1 k.2)) <;> rfl

theorem run_resolveClassIn (k : String × String) :
    (∃ c, (catalogue s).definition ((catalogue s).standsFor k) = some c ∧
        postgres.run (resolveClassIn k.1 k.2) s =
          .ok (⟨c, ((catalogue s).standsFor k).2, ((catalogue s).standsFor k).1, k.2⟩, s)) ∨
      ∃ e, postgres.run (resolveClassIn k.1 k.2) s = .error e ∧ e ≠ .chainTooDeep := by
  have hbind {α β : Type} (p : Tx α) (f : α → Tx β) :
      postgres.run (p >>= f) s = (postgres.run p s).bind fun r => postgres.run (f r.1) r.2 :=
    Database.run_bind postgres p f s
  rw [resolveClassIn, hbind, run_loadClassIn]
  cases hfound : catalogue s k with
  | none => exact Or.inr ⟨.classNotFound, rfl, by decide⟩
  | some found =>
    dsimp only [Except.bind]
    cases hsource : found.source with
    | none =>
      have hself : (catalogue s).standsFor k = k := by simp [Catalogue.standsFor, hfound, hsource]
      rw [hself]
      exact Or.inl ⟨found, Catalogue.definition_eq_some.mpr ⟨hfound, hsource⟩, rfl⟩
    | some src =>
      have hsrc : (catalogue s).standsFor k = src := by simp [Catalogue.standsFor, hfound, hsource]
      dsimp only
      rw [hsrc, hbind, run_loadClassIn]
      cases htarget : catalogue s src with
      | none => exact Or.inr ⟨.classNotFound, rfl, by decide⟩
      | some target =>
        dsimp only [Except.bind]
        cases hchained : target.source with
        | none => exact Or.inl ⟨target, Catalogue.definition_eq_some.mpr ⟨htarget, hchained⟩, rfl⟩
        | some _ => exact Or.inr ⟨.chainedReference, rfl, by decide⟩

theorem run_bind_pure_ne {α β : Type} {p : Tx α} {f : α → β} {e : Err} (h : postgres.run p s ≠ .error e) :
    postgres.run (p >>= fun a => pure (f a)) s ≠ .error e := by
  have hrun : postgres.run (p >>= fun a => pure (f a)) s = (postgres.run p s).bind fun r => .ok (f r.1, r.2) :=
    Database.run_bind _ _ _ _
  rw [hrun]
  cases hp : postgres.run p s with
  | ok r => simp [Except.bind]
  | error e' => simpa [Except.bind, hp] using h

theorem run_ancestryFrom (hC : (catalogue s).Shallow) {leaf : ResolvedClass} {start : String × String} (turns : ℕ)
    {current : ResolvedClass} {seen : List Key} {n : ℕ} (hturns : n + turns = maxClassChainDepth + 1)
    (hdef : (catalogue s).definition (current.project, current.name) = some current.spec)
    (hclimb : climb (catalogue s).parentKey n start = some (current.project, current.name))
    (hseen : ∀ key ∈ seen, ∃ x m, key = classStorageKey x.1 x.2 ∧
      climb (catalogue s).parentKey m x = some (current.project, current.name)) :
    postgres.run (ancestryFrom leaf turns current seen) s ≠ .error .chainTooDeep := by
  induction turns generalizing current seen n with
  | zero =>
    have := hC n start _ hclimb (Option.isSome_iff_exists.mpr ⟨_, hdef⟩)
    omega
  | succ turns ih =>
    simp only [ancestryFrom]
    cases hname : current.spec.parentClassName with
    | none => simp [Database.run, pure]
    | some name =>
      have hlink := Catalogue.parentKey_eq hdef hname
      have hbind : ∀ f : ResolvedClass → Tx (List ResolvedClass),
          postgres.run (resolveClassIn current.project name >>= f) s =
            (postgres.run (resolveClassIn current.project name) s).bind fun r => postgres.run (f r.1) r.2 :=
        fun f => Database.run_bind _ _ _ _
      rcases run_resolveClassIn (s := s) (current.project, name) with ⟨c, hc, hok⟩ | ⟨e, herr, hne⟩
      · obtain ⟨up, hup⟩ : ∃ up, (catalogue s).standsFor (current.project, name) = up := ⟨_, rfl⟩
        rw [hup] at hc hok hlink
        have hnext : ∀ m x, climb (catalogue s).parentKey m x = some (current.project, current.name) →
            climb (catalogue s).parentKey (m + 1) x = some up := by
          intro m x hm
          rw [climb_last, hm]
          exact hlink
        have hdefines : (catalogue s).Defines up := Option.isSome_iff_exists.mpr ⟨c, hc⟩
        rw [hbind, hok]
        dsimp only [Except.bind]
        split
        · rename_i hmem
          obtain ⟨x, m, hkey, hm⟩ := hseen _ hmem
          obtain rfl : up = x := by
            simp only [classStorageKey, Key.object.injEq, true_and] at hkey
            exact Prod.ext hkey.1 hkey.2
          exact absurd (hnext m up hm) (hC.acyclic hdefines)
        split
        · simp [Database.run]
        · have hrest := @ih ⟨c, up.2, up.1, name⟩ (classStorageKey up.1 up.2 :: seen) (n + 1) (by omega) hc
            (hnext n start hclimb) (by
              intro key hmem
              rcases List.mem_cons.mp hmem with rfl | hmem
              · exact ⟨up, 0, rfl, rfl⟩
              · obtain ⟨x, m, hkey, hm⟩ := hseen key hmem
                exact ⟨x, m + 1, hkey, hnext m x hm⟩)
          exact run_bind_pure_ne hrest
      · have herr' : postgres.run (resolveClassIn current.project name) s = .error e := herr
        rw [hbind, herr']
        simpa [Except.bind] using hne

theorem run_loadAncestry (hC : (catalogue s).Shallow) {leaf : ResolvedClass}
    (hdef : (catalogue s).definition (leaf.project, leaf.name) = some leaf.spec) :
    postgres.run (loadAncestry leaf) s ≠ .error .chainTooDeep := by
  refine @run_ancestryFrom s hC leaf (leaf.project, leaf.name) (maxClassChainDepth + 1) leaf _ 0 (by omega) hdef rfl ?_
  intro key hkey
  exact ⟨(leaf.project, leaf.name), 0, List.mem_singleton.mp hkey, rfl⟩

/-- The classes are a forest of bounded depth, and no walk up from a stored class finds a cycle or a chain too deep. -/
structure Forest (s : Db) : Prop where
  shallow : (catalogue s).Shallow
  rooted : ∀ k, (∀ n b, climb (catalogue s).parentKey n k = some b → (catalogue s).Defines b) →
    ∃ n ≤ maxClassChainDepth, ∃ r, climb (catalogue s).parentKey n k = some r ∧ (catalogue s).IsRoot r
  ancestry : ∀ project name leaf s', postgres.run (resolveClassIn project name) s = .ok (leaf, s') →
    postgres.run (loadAncestry leaf) s ≠ .error .chainTooDeep

theorem forest_iff : Forest s ↔ (catalogue s).Shallow := by
  refine ⟨fun h => h.shallow, fun h => ⟨h, fun k hall => h.rooted hall, ?_⟩⟩
  intro project name leaf s' hrun
  apply run_loadAncestry h
  rcases run_resolveClassIn (s := s) (project, name) with ⟨c, hc, hok⟩ | ⟨e, herr, -⟩
  · obtain ⟨rfl, -⟩ := Prod.mk.inj (Except.ok.inj (hok.symm.trans hrun))
    exact hc
  · cases herr.symm.trans hrun

theorem shallow_empty (h : ∀ k, s.class_ k = none) : (catalogue s).Shallow := by
  intro n a b _ hb
  simp [Catalogue.Defines, Catalogue.definition, catalogue, h] at hb

end

def serveClass (a : ClassAction) (s : Db) : Db :=
  (ClassHistory.serve a ⟨s, fun _ => none⟩).db

def runClasses (actions : List ClassAction) (s : Db) : Db :=
  actions.foldl (fun s a => serveClass a s) s

def LeavesClasses (s : Db) : ClassAction → Prop
  | .other db => ∀ k, db.class_ k = s.class_ k
  | _ => True

def CreatesFitting (s : Db) (a : ClassAction) : Prop :=
  ∀ k c, catalogue s k = none → catalogue (serveClass a s) k = some c → (catalogue s).Fits k c

section

variable {s : Db}

theorem catalogue_put (req : ClassRequest) (s : Db) :
    catalogue (Effect.apply (.putObject req.key (.class_ req.class_)) s) =
      Function.update (catalogue s) (req.project, req.name) (some req.class_) := by
  funext k
  simp only [catalogue, class_put, Function.update_apply]
  congr 1
  simp [ClassRequest.key, classStorageKey, Prod.ext_iff]

theorem serveClass_catalogue {a : ClassAction} (hother : LeavesClasses s a) :
    (∃ k c, catalogue s k = none ∧ catalogue (serveClass a s) = Function.update (catalogue s) k (some c)) ∨
      ∀ k c, catalogue (serveClass a s) k = some c → ∃ old, catalogue s k = some old ∧ c.source = old.source ∧
        c.parentClassName = old.parentClassName := by
  have hsame : ∀ k c, catalogue s k = some c → ∃ old, catalogue s k = some old ∧ c.source = old.source ∧
      c.parentClassName = old.parentClassName := fun k c hc => ⟨c, hc, rfl, rfl⟩
  cases a with
  | create req =>
    have hcreate : (createClass req).after s = s ∨ _ := createClass_ensures req s
    simp only [serveClass, ClassHistory.serve, ClassHistory.write]
    rcases hcreate with heq | ⟨-, habsent, heq⟩
    · rw [heq]
      exact Or.inr hsame
    · rw [heq, catalogue_put]
      exact Or.inl ⟨(req.project, req.name), req.class_, ClassHistory.class_of_absent habsent, rfl⟩
  | update req forceAllowCreate =>
    have hupdate : (updateClass req forceAllowCreate).after s = s ∨ _ := updateClass_ensures req forceAllowCreate s
    simp only [serveClass, ClassHistory.serve, ClassHistory.write]
    rcases hupdate with heq | ⟨heq, ⟨habsent, -⟩ | ⟨old, hold, hsource⟩⟩
    · rw [heq]
      exact Or.inr hsame
    · rw [heq, catalogue_put]
      exact Or.inl ⟨(req.project, req.name), req.class_, ClassHistory.class_of_absent habsent, rfl⟩
    · right
      intro k c hc
      rw [heq, catalogue_put] at hc
      by_cases hk : k = (req.project, req.name)
      · subst hk
        obtain rfl : req.class_ = c := by simpa using hc
        exact ⟨old, hold, hsource.1, hsource.2.1⟩
      · rw [Function.update_of_ne hk] at hc
        exact hsame k c hc
  | delete project name admitted dryRun =>
    have hdelete : ∀ k c, (serveClass (.delete project name admitted dryRun) s).class_ k = some c →
        s.class_ k = some c := deleteClass_ensures project name admitted dryRun s
    exact Or.inr fun k c hc => hsame k c (hdelete _ c hc)
  | other db =>
    exact Or.inr fun k c hc => hsame k c ((hother _).symm.trans hc)

theorem forest_serve_iff {a : ClassAction} (hother : LeavesClasses s a) (hs : Forest s) :
    Forest (serveClass a s) ↔ CreatesFitting s a := by
  rw [forest_iff]
  rcases serveClass_catalogue hother with ⟨k, c, hk, heq⟩ | hsub
  · rw [heq, Catalogue.shallow_update_iff hk hs.shallow]
    constructor
    · intro hfits k' c' hk' hc'
      rw [heq] at hc'
      by_cases hkey : k' = k
      · subst hkey
        obtain rfl : c = c' := by simpa using hc'
        exact hfits
      · rw [Function.update_of_ne hkey, hk'] at hc'
        cases hc'
    · exact fun h => h k c hk (by rw [heq, Function.update_self])
  · refine iff_of_true (hs.shallow.sub hsub) ?_
    intro k c hk hc
    obtain ⟨old, hold, -⟩ := hsub k c hc
    rw [hk] at hold
    cases hold

end

theorem classes_forest_iff (init : Db) (hinit : ∀ k, init.class_ k = none) (actions : List ClassAction)
    (hother : ∀ pre a post, actions = pre ++ a :: post → LeavesClasses (runClasses pre init) a) :
    (∀ pre post, actions = pre ++ post → Forest (runClasses pre init)) ↔
      ∀ pre a post, actions = pre ++ a :: post → CreatesFitting (runClasses pre init) a := by
  have hnext : ∀ pre a, runClasses (pre ++ [a]) init = serveClass a (runClasses pre init) := by
    intro pre a
    simp [runClasses, List.foldl_append]
  constructor
  · intro h pre a post hactions
    have hafter := h (pre ++ [a]) post (by simpa using hactions)
    rw [hnext] at hafter
    exact (forest_serve_iff (hother pre a post hactions) (h pre (a :: post) hactions)).mp hafter
  · intro h pre
    induction pre using List.reverseRecOn with
    | nil => exact fun _ _ => forest_iff.mpr (shallow_empty hinit)
    | append_singleton pre a ih =>
      intro post hactions
      have hcut : actions = pre ++ a :: post := by simpa using hactions
      rw [hnext]
      exact (forest_serve_iff (hother pre a post hcut) (ih (a :: post) hcut)).mpr (h pre a post hcut)

def childClass (name : String) (parent : Option String) : ClassRequest where
  project := "platform"
  name := name
  class_ := ⟨false, none, some .v4, none, parent, [], [], none, 0, none, none, none⟩
  canUse := none
  admitted := true
  dryRun := []

def cyclicActions : List ClassAction :=
  [.create (childClass "a" (some "b")), .create (childClass "b" (some "a"))]

theorem classes_forest_iff_cycle :
    ¬ ∀ pre a post, cyclicActions = pre ++ a :: post → CreatesFitting (runClasses pre Db.empty) a := by
  have hother : ∀ pre a post, cyclicActions = pre ++ a :: post → LeavesClasses (runClasses pre Db.empty) a := by
    intro pre a post h
    have hmem : a ∈ cyclicActions := by
      rw [h]
      simp
    simp only [cyclicActions, List.mem_cons, List.not_mem_nil, or_false] at hmem
    rcases hmem with rfl | rfl <;> trivial
  intro hfitting
  have hforest := (classes_forest_iff Db.empty (fun _ => rfl) _ hother).mpr hfitting _ [] (List.append_nil _).symm
  -- the walk up from `a` does not end
  exact hforest.ancestry "platform" "a" ⟨(childClass "a" (some "b")).class_, "a", "platform", "a"⟩
    (runClasses cyclicActions Db.empty) (by decide +kernel) (by decide +kernel)

theorem classes_cycle :
    ∃ s leaf, s = runClasses [.create (childClass "a" (some "b")), .create (childClass "b" (some "a"))] Db.empty ∧
      postgres.run (resolveClassIn "platform" "a") s = .ok (leaf, s) ∧
      postgres.run (loadAncestry leaf) s = .error .chainTooDeep :=
  ⟨_, ⟨(childClass "a" (some "b")).class_, "a", "platform", "a"⟩, rfl, by decide +kernel, by decide +kernel⟩

end Ipam.Registry
