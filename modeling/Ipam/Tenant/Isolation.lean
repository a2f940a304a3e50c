import Mathlib.Data.Char
import Mathlib.Data.List.Lex
import Ipam.Tenant.RootPools
import Ipam.Watch.Objects

namespace Ipam.Tenant

open Allocation Database Watch

structure ObjectRow extends NamedRow where
  kind : String
  resourceVersion : ℕ
  deriving DecidableEq, Repr

def orderByKey (rows : List ObjectRow) : List ObjectRow :=
  rows.insertionSort fun a b => a.key ≤ b.key

def withSlash (key : KeyText) : KeyText :=
  if key.getLast? = some '/' then key else key ++ ['/']

def listItem (predicate : Option (Object → Option Bool)) (o : ObjectRow) : Option (Option Object) := do
  let obj ← o.data
  match predicate with
  | none => pure (some obj)
  | some matchesPredicate => do
    let kept ← matchesPredicate obj
    pure (if kept then some obj else none)

/-- The greatest version of the store, whatever project its row belongs to. -/
def currentResourceVersion (log : Changelog Object) (objects : List ObjectRow) : ℕ :=
  max (max (maxVersion (objects.map ObjectRow.resourceVersion))
    (maxVersion ((log.visible.filter (·.commitXid < log.horizon)).map Entry.resourceVersion))) 1

def getList (project key : KeyText) (recursive : Bool) (predicate : Option (Object → Option Bool))
    (log : Changelog Object) (objects : List ObjectRow) : Option (List Object × ℕ) := do
  let rows :=
    if recursive then
      orderByKey (objects.filter fun o => like (applyPrefix project (withSlash key) ++ ['%']) o.key)
    else objects.filter fun o => o.key = applyPrefix project key
  let items ← rows.mapM (listItem predicate)
  pure (items.filterMap id, currentResourceVersion log objects)

def watch (project key : KeyText) (excludedKeyPrefixes : List KeyText) (predicate : Option (Object → Bool)) :
    Request Object :=
  ⟨applyPrefix project key, excludedKeyPrefixes, predicate⟩

def plural (kind : String) : KeyText :=
  if kind = "IPPool" then "ippools".toList else kind.toList.map Char.toLower ++ ['s']

def listPools (kind : String) (ownerProject : KeyText) (objects : List ObjectRow) :
    List (KeyText × Option Object) :=
  (orderByKey (objects.filter fun o => o.kind = kind ∧
    like (applyPrefix ownerProject ("/ipam.miloapis.com/".toList ++ plural kind ++ ['/']) ++ ['%']) o.key)).map
      fun o => (o.key, o.data)

def offeringPools (project : KeyText) (className : String) (offers : List (KeyText × String))
    (objects : List ObjectRow) : List (KeyText × Option Object) :=
  (orderByKey (objects.filter fun o => (o.key, className) ∈ offers ∧ o.kind = "IPPool" ∧
    like (resourceKeyPrefixFor project "ippools".toList ++ ['%']) o.key)).map fun o => (o.key, o.data)

def SameBut (project : KeyText) (objects objects' : List ObjectRow) : Prop :=
  objects.filter (fun o => ¬ OwnedBy project o.key) = objects'.filter fun o => ¬ OwnedBy project o.key

def SameLogBut (project : KeyText) (L L' : Changelog Object) : Prop :=
  L.visible.filter (fun e => ¬ OwnedBy project e.key) = L'.visible.filter fun e => ¬ OwnedBy project e.key

def SameStoreBut (project : KeyText) (S S' : Store Object) : Prop :=
  S.objects.filter (fun o => ¬ OwnedBy project o.key) = S'.objects.filter fun o => ¬ OwnedBy project o.key

/-- No scan for `p` depends on the objects of `q`. Of a list these are the items. -/
structure Isolated (p q : KeyText) : Prop where
  list : ∀ key recursive predicate log log' objects objects', SameBut q objects objects' →
    (getList p key recursive predicate log objects).map Prod.fst =
      (getList p key recursive predicate log' objects').map Prod.fst
  initial : ∀ key excluded predicate S S', SameStoreBut q S S' →
    sendInitialEventList (watch p key excluded predicate) S = sendInitialEventList (watch p key excluded predicate) S'
  poll : ∀ key excluded predicate L L' horizon cursor, SameLogBut q L L' →
    (watch p key excluded predicate).pending L horizon cursor =
      (watch p key excluded predicate).pending L' horizon cursor
  pools : ∀ kind objects objects', SameBut q objects objects' → listPools kind p objects = listPools kind p objects'
  roots : ∀ excludeName objects objects', SameBut q objects objects' →
    tenantRootPoolCIDRs p excludeName (objects.map ObjectRow.toNamedRow) =
      tenantRootPoolCIDRs p excludeName (objects'.map ObjectRow.toNamedRow)
  offers : ∀ className offers objects objects', SameBut q objects objects' →
    offeringPools p className offers objects = offeringPools p className offers objects'

theorem filter_eq_of_outside {α : Type} {owned : α → Prop} [DecidablePred owned] {as bs : List α}
    (h : as.filter (fun a => ¬ owned a) = bs.filter fun a => ¬ owned a) {f : α → Bool}
    (hf : ∀ a, f a = true → ¬ owned a) : as.filter f = bs.filter f := by
  have hboth : ∀ l : List α, l.filter f = (l.filter fun a => ¬ owned a).filter f := by
    intro l
    rw [List.filter_filter]
    apply List.filter_congr
    intro a _
    cases ha : f a with
    | false => rfl
    | true => simp [hf a ha]
  rw [hboth as, hboth bs, h]

section

variable {p q : KeyText}

theorem literal_project : Literal "project/".toList := by
  simp [Literal, special]

theorem literal_keyPrefix (hp : p ≠ []) (h : Literal p) : Literal (keyPrefix p) := by
  rw [keyPrefix_eq hp]
  intro c hc
  simp only [List.mem_append, List.mem_singleton] at hc
  rcases hc with (hc | hc) | rfl
  · exact literal_project c hc
  · exact h c hc
  · decide

/-- The names whose patterns reach no key of another project. A lone backslash escapes the slash that follows it, and
no project has the empty name. -/
def Confined (p : KeyText) : Prop :=
  Literal p ∨ p = ['\\']

instance (p : KeyText) : Decidable (Confined p) :=
  inferInstanceAs (Decidable (_ ∨ _))

theorem not_ownedBy_of_like (hp : ProjectName p) (hq : ProjectName q) (hne : q ≠ p) (h : Confined p)
    {pattern key : KeyText} (hlike : like (keyPrefix p ++ pattern) key = true) : ¬ OwnedBy q key := by
  intro hkey
  rcases h with hp' | rfl
  · obtain ⟨rest, rfl, -⟩ := (like_literal_append (literal_keyPrefix hp.1 hp') _ _).mp hlike
    exact hne (ownedBy_unique hq hp hkey ⟨rest, rfl⟩)
  · have hsplit : keyPrefix ['\\'] ++ pattern = "project/".toList ++ '\\' :: '/' :: pattern := rfl
    rw [hsplit] at hlike
    obtain ⟨rest, rfl, hrest⟩ := (like_literal_append literal_project _ _).mp hlike
    obtain ⟨rest', rfl, -⟩ := (like_escaped '/' pattern rest).mp hrest
    obtain ⟨tail, heq⟩ := hkey
    rw [keyPrefix_eq hq.1] at heq
    simp only [List.append_assoc, List.append_cancel_left_eq] at heq
    cases q with
    | nil => exact hq.1 rfl
    | cons c q =>
      obtain ⟨rfl, -⟩ := List.cons.inj heq
      exact hq.2 List.mem_cons_self

theorem not_ownedBy_of_eq (hp : ProjectName p) (hq : ProjectName q) (hne : q ≠ p) (key : KeyText) :
    ¬ OwnedBy q (applyPrefix p key) := by
  rw [applyPrefix_eq hp.1]
  exact fun hkey => hne (ownedBy_unique hq hp hkey ⟨_, rfl⟩)

theorem not_ownedBy_of_escaped (hp : ProjectName p) (hq : ProjectName q) (hne : q ≠ p) {resource key : KeyText}
    (hlike : like (resourceKeyPrefixFor p resource ++ ['%']) key = true) : ¬ OwnedBy q key := by
  obtain ⟨rest, rfl⟩ := (like_likeEscape _ _).mp hlike
  rw [resourceKey, applyPrefix_eq hp.1]
  exact fun hkey => hne (ownedBy_unique hq hp hkey ⟨_, by rw [List.append_assoc]⟩)

theorem watch_covers_not_ownedBy (hp : ProjectName p) (hq : ProjectName q) (hne : q ≠ p) (h : Confined p)
    {key : KeyText} {excluded : List KeyText} {predicate : Option (Object → Bool)} {k : KeyText}
    (hcovers : (watch p key excluded predicate).covers k = true) : ¬ OwnedBy q k := by
  simp only [Request.covers, Bool.and_eq_true, Bool.or_eq_true, beq_iff_eq] at hcovers
  rcases hcovers.1 with rfl | hlike
  · exact not_ownedBy_of_eq hp hq hne key
  · obtain ⟨rest, hrest⟩ : ∃ rest, (watch p key excluded predicate).keyPrefix = keyPrefix p ++ rest := by
      have hkey : (watch p key excluded predicate).key = keyPrefix p ++ trimSlash key := applyPrefix_eq hp.1 key
      simp only [Request.keyPrefix, hkey]
      split
      · exact ⟨_, rfl⟩
      · exact ⟨_, List.append_assoc _ _ _⟩
    rw [hrest, List.append_assoc] at hlike
    exact not_ownedBy_of_like hp hq hne h hlike

theorem isolated_of_confined (hp : ProjectName p) (hq : ProjectName q) (hne : q ≠ p) (h : Confined p) :
    Isolated p q := by
  have hlike : ∀ {key pattern k : KeyText}, like (applyPrefix p key ++ pattern) k = true → ¬ OwnedBy q k := by
    intro key pattern k hk
    rw [applyPrefix_eq hp.1, List.append_assoc] at hk
    exact not_ownedBy_of_like hp hq hne h hk
  refine ⟨?_, ?_, ?_, ?_, ?_, ?_⟩
  · intro key recursive predicate log log' objects objects' hsame
    have hall := filter_eq_of_outside hsame
      (f := fun o => like (applyPrefix p (withSlash key) ++ ['%']) o.key) fun o ho => hlike ho
    have hone := filter_eq_of_outside hsame (f := fun o => o.key = applyPrefix p key) (by
      intro o ho
      have hkey : o.key = applyPrefix p key := by simpa using ho
      rw [hkey]
      exact not_ownedBy_of_eq hp hq hne key)
    simp only [getList, hall, hone]
    cases (if recursive then orderByKey (objects'.filter fun o =>
      like (applyPrefix p (withSlash key) ++ ['%']) o.key) else objects'.filter fun o =>
        o.key = applyPrefix p key).mapM (listItem predicate) <;> rfl
  · intro key excluded predicate S S' hsame
    simp only [sendInitialEventList, filter_eq_of_outside hsame fun o ho => watch_covers_not_ownedBy hp hq hne h ho]
  · intro key excluded predicate L L' horizon cursor hsame
    have hall := filter_eq_of_outside hsame (f := fun e => decide (e.commitXid < horizon ∧
      cursor < Changefeed.pos e ∧ (watch p key excluded predicate).covers e.key)) (by
        intro e he
        exact watch_covers_not_ownedBy hp hq hne h (of_decide_eq_true he).2.2)
    simp only [Request.pending, hall]
  · intro kind objects objects' hsame
    have hall := filter_eq_of_outside hsame (f := fun o => decide (o.kind = kind ∧
      like (applyPrefix p ("/ipam.miloapis.com/".toList ++ plural kind ++ ['/']) ++ ['%']) o.key)) (by
        intro o ho
        exact hlike (of_decide_eq_true ho).2)
    simp only [listPools, hall]
  · intro excludeName objects objects' hsame
    have hall := filter_eq_of_outside hsame (f := fun o => decide (
      like (resourceKey p "ippools".toList [] ++ ['%']) o.key ∧ o.name ≠ excludeName)) (by
        intro o ho
        exact hlike (of_decide_eq_true ho).1)
    simp only [tenantRootPoolCIDRs, List.filter_map]
    exact congrArg (fun rows => (rows.map ObjectRow.toNamedRow).filterMap rootPool) hall
  · intro className offers objects objects' hsame
    have hall := filter_eq_of_outside hsame (f := fun o => decide ((o.key, className) ∈ offers ∧ o.kind = "IPPool" ∧
      like (resourceKeyPrefixFor p "ippools".toList ++ ['%']) o.key)) (by
        intro o ho
        exact not_ownedBy_of_escaped hp hq hne (of_decide_eq_true ho).2.2)
    simp only [offeringPools, hall]

def edgePool (project : KeyText) : ObjectRow where
  key := resourceKey project "ippools".toList "edge".toList
  kind := "IPPool"
  name := "edge"
  resourceVersion := 1
  data := some (.pool ⟨some ⟨⟨.v4, 10 * 2 ^ 24, Cidr.tenNetwork_lt⟩, 8, by decide⟩, some .v4, none, 0, [], none, [], none,
    .firstFit, 0, 0, none, none, "", none⟩)

theorem edgePool_key {project : KeyText} (h : project ≠ []) :
    (edgePool project).key = "project/".toList ++ (project ++ '/' :: "ipam.miloapis.com/ippools/edge".toList) := by
  have hkey : (edgePool project).key = keyPrefix project ++ "ipam.miloapis.com/ippools/edge".toList :=
    applyPrefix_eq h _
  rw [hkey, keyPrefix_eq h]
  simp only [List.append_assoc, List.singleton_append]

theorem listPools_reading (hp : ProjectName p) (h : ¬ Confined p) :
    listPools "IPPool" p [edgePool (reading p)] = [((edgePool (reading p)).key, (edgePool (reading p)).data)] := by
  have hreading : ProjectName (reading p) := reading_projectName hp fun heq => h (Or.inr heq)
  have hpattern : applyPrefix p ("/ipam.miloapis.com/".toList ++ plural "IPPool" ++ ['/']) ++ ['%'] =
      "project/".toList ++ (p ++ '/' :: "ipam.miloapis.com/ippools/%".toList) := by
    have happly : applyPrefix p ("/ipam.miloapis.com/".toList ++ plural "IPPool" ++ ['/']) =
        keyPrefix p ++ "ipam.miloapis.com/ippools/".toList := applyPrefix_eq hp.1 _
    rw [happly, keyPrefix_eq hp.1]
    simp only [List.append_assoc, List.singleton_append]
    rfl
  have hlike : like (applyPrefix p ("/ipam.miloapis.com/".toList ++ plural "IPPool" ++ ['/']) ++ ['%'])
      (edgePool (reading p)).key = true := by
    rw [hpattern, edgePool_key hreading.1]
    apply (like_literal_append literal_project _ _).mpr
    exact ⟨_, rfl, like_reading p (by decide +kernel)⟩
  simp only [listPools, List.filter_cons, List.filter_nil, hlike]
  rfl

theorem not_isolated_reading (hp : ProjectName p) (h : ¬ Confined p) : ¬ Isolated p (reading p) := by
  intro hisolated
  have hreading : ProjectName (reading p) := reading_projectName hp fun heq => h (Or.inr heq)
  have howned : OwnedBy (reading p) (edgePool (reading p)).key := ⟨_, (applyPrefix_eq hreading.1 _).symm⟩
  have hsame : SameBut (reading p) [edgePool (reading p)] [] := by
    simp [SameBut, howned]
  have heq := hisolated.pools "IPPool" _ _ hsame
  rw [listPools_reading hp h] at heq
  cases heq

end

theorem getList_version (p key : KeyText) (recursive : Bool) (log : Changelog Object) (row : ObjectRow)
    (h : row.data.isSome = true) :
    (getList p key recursive none log [row]).map Prod.snd = some (currentResourceVersion log [row]) := by
  obtain ⟨o, ho⟩ := Option.isSome_iff_exists.mp h
  have hitem : listItem none row = some (some o) := by simp [listItem, ho]
  have hitems : ∀ rows : List ObjectRow, rows = [row] ∨ rows = [] → ∃ items, rows.mapM (listItem none) = some items := by
    rintro rows (rfl | rfl)
    · exact ⟨[some o], by simp [hitem]⟩
    · exact ⟨[], rfl⟩
  have hrows : ∀ f : ObjectRow → Bool, [row].filter f = [row] ∨ [row].filter f = [] := by
    intro f
    cases hf : f row <;> simp [hf]
  have hsorted : ∀ f : ObjectRow → Bool, orderByKey ([row].filter f) = [row] ∨ orderByKey ([row].filter f) = [] := by
    intro f
    obtain hf | hf := hrows f
    · exact .inl (by rw [hf]; rfl)
    · exact .inr (by rw [hf]; rfl)
  simp only [getList]
  cases recursive with
  | true =>
    obtain ⟨items, hmap⟩ := hitems _ (hsorted fun o => like (applyPrefix p (withSlash key) ++ ['%']) o.key)
    simp only [if_true, hmap]
    rfl
  | false =>
    obtain ⟨items, hmap⟩ := hitems _ (hrows fun o => o.key = applyPrefix p key)
    simp only [Bool.false_eq_true, if_false, hmap]
    rfl

theorem version_changes (p : KeyText) {q : KeyText} (hq : ProjectName q) (key : KeyText) (recursive : Bool)
    (log : Changelog Object) : ∃ objects, SameBut q objects [] ∧
      (getList p key recursive none log objects).map Prod.snd ≠ (getList p key recursive none log []).map Prod.snd := by
  let row : ObjectRow := { edgePool q with resourceVersion := currentResourceVersion log [] + 1 }
  have howned : OwnedBy q row.key := ⟨_, (applyPrefix_eq hq.1 _).symm⟩
  refine ⟨[row], by simp [SameBut, howned], ?_⟩
  have hempty : (getList p key recursive none log []).map Prod.snd = some (currentResourceVersion log []) := by
    cases recursive <;> rfl
  have hle : currentResourceVersion log [] + 1 ≤ currentResourceVersion log [row] := by
    simp [currentResourceVersion, maxVersion, row]
  rw [getList_version p key recursive log row rfl, hempty]
  intro heq
  have := Option.some.inj heq
  omega

/-- The scans for a project are isolated from every other one exactly if its name has no character that `LIKE` treats
as special, or is a lone backslash. The version that a list carries is the store's, and no project's alone. -/
theorem scans_isolated_iff (p : KeyText) (hp : ProjectName p) :
    ((∀ q, ProjectName q → q ≠ p → Isolated p q) ↔ Confined p) ∧
      ∀ q, ProjectName q → ∀ key recursive log, ∃ objects, SameBut q objects [] ∧
        (getList p key recursive none log objects).map Prod.snd ≠ (getList p key recursive none log []).map Prod.snd := by
  refine ⟨⟨?_, ?_⟩, fun q hq => version_changes p hq⟩
  · intro h
    by_contra hp'
    have hreading : ProjectName (reading p) := reading_projectName hp fun heq => hp' (Or.inr heq)
    have hne : reading p ≠ p := fun heq => hp' (Or.inl (literal_of_reading heq))
    exact not_isolated_reading hp hp' (h (reading p) hreading hne)
  · exact fun h q hq hne => isolated_of_confined hp hq hne h

theorem scans_isolated_iff_alpha : Isolated "alpha".toList "beta".toList := by
  have hconfined : Confined "alpha".toList := .inl (by simp [Literal, special])
  exact (scans_isolated_iff "alpha".toList (by decide +kernel)).1.mpr hconfined _ (by decide +kernel) (by decide +kernel)

theorem scans_leak :
    OwnedBy "axb".toList (edgePool "axb".toList).key ∧
      listPools "IPPool" "a_b".toList [edgePool "axb".toList] =
        [((edgePool "axb".toList).key, (edgePool "axb".toList).data)] ∧
      (getList "a_b".toList "/ipam.miloapis.com/ippools".toList true none Changefeed.Log.empty [edgePool "axb".toList]).map
        (fun r => r.1.length) = some 1 ∧
      tenantRootPoolCIDRs "a_b".toList "core" [(edgePool "axb".toList).toNamedRow] =
        [("edge", ⟨⟨.v4, 10 * 2 ^ 24, by decide⟩, 8, by decide⟩)] ∧
      (watch "a_b".toList "/ipam.miloapis.com/ippools".toList [] none).covers (edgePool "axb".toList).key = true := by
  refine ⟨?_, ?_, ?_, ?_, ?_⟩ <;> decide +kernel

end Ipam.Tenant
