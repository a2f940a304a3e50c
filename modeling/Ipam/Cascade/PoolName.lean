import Ipam.Lib.Words
import Ipam.Cascade.Plan

namespace Ipam.Cascade

open Database Words

def nameWords (t : List Char) : List (List Char) :=
  words isNameChar (t.map toLower)

def dashed (ws : List (List Char)) : List Char :=
  ['-'].intercalate ws

def written (done : List (List Char)) (carry : List Char) : List Char × Bool :=
  if carry ≠ [] then (dashed (done ++ [carry]), false)
  else if done = [] then ([], false)
  else (dashed done ++ ['-'], true)

theorem isNameChar_dash : isNameChar '-' = false := by decide

theorem written_carry {done : List (List Char)} {carry : List Char} (h : carry ≠ []) :
    written done carry = (dashed (done ++ [carry]), false) :=
  if_pos h

theorem written_done {done : List (List Char)} (h : done ≠ []) :
    written done [] = (dashed done ++ ['-'], true) := by
  simp [written, h]

theorem sanitizeStep_keep (done : List (List Char)) (carry : List Char) {r : Char} (hr : isNameChar r = true) :
    sanitizeStep (written done carry) r = written done (carry ++ [r]) := by
  have hstep : sanitizeStep (written done carry) r = ((written done carry).1 ++ [r], false) := if_pos hr
  have hkeep : written done (carry ++ [r]) = (dashed (done ++ [carry ++ [r]]), false) := written_carry (by simp)
  rw [hstep, hkeep]
  by_cases hcarry : carry = []
  · subst hcarry
    by_cases hdone : done = []
    · subst hdone
      rfl
    · rw [written_done hdone, List.nil_append]
      simp only [dashed, intercalate_concat ['-'] hdone, List.append_assoc]
  · rw [written_carry hcarry]
    simp only [dashed, intercalate_concat_append]

theorem sanitizeStep_skip (done : List (List Char)) (carry : List Char) {r : Char} (hr : isNameChar r = false) :
    sanitizeStep (written done carry) r = written (done ++ flush carry) [] := by
  simp only [sanitizeStep, hr, Bool.false_eq_true, if_false]
  by_cases hcarry : carry = []
  · subst hcarry
    rw [flush_nil, List.append_nil]
    by_cases hdone : done = []
    · subst hdone
      rfl
    · rw [written_done hdone]
      rfl
  · have hpos : 0 < (dashed (done ++ [carry])).length := by
      have hlast := intercalate_concat_append ['-'] done [] carry
      rw [List.nil_append] at hlast
      rw [dashed, ← hlast, List.length_append]
      have := List.length_pos_iff.mpr hcarry
      omega
    rw [flush_of_ne_nil hcarry, written_carry hcarry, written_done (by simp)]
    simp [hpos]

theorem foldl_sanitizeStep (done : List (List Char)) (carry l : List Char) :
    ∃ done' carry', l.foldl sanitizeStep (written done carry) = written done' carry' ∧
      done' ++ flush carry' = done ++ wordsFrom isNameChar carry l := by
  induction l generalizing done carry with
  | nil => exact ⟨done, carry, rfl, rfl⟩
  | cons r l ih =>
    simp only [List.foldl_cons, wordsFrom]
    cases hr : isNameChar r with
    | true =>
      rw [sanitizeStep_keep done carry hr]
      simpa using ih done (carry ++ [r])
    | false =>
      rw [sanitizeStep_skip done carry hr]
      simpa using ih (done ++ flush carry) []

theorem trimDashes_append {c : Char} {t t' : List Char} {d : Char} (hc : isNameChar c = true)
    (ht : c :: t = t' ++ [d]) (hd : isNameChar d = true) (b : Bool) :
    trimDashes (c :: t ++ if b then ['-'] else []) = c :: t := by
  have hc' : c ≠ '-' := by
    rintro rfl
    rw [isNameChar_dash] at hc
    cases hc
  have hd' : d ≠ '-' := by
    rintro rfl
    rw [isNameChar_dash] at hd
    cases hd
  have hdrop : (c :: t ++ if b then ['-'] else []).dropWhile (· = '-') = c :: t ++ if b then ['-'] else [] := by
    simp [hc']
  rw [trimDashes, hdrop, ht]
  cases b with
  | false =>
    rw [if_neg (by simp), List.append_nil]
    exact List.rdropWhile_concat_neg _ _ _ (by simpa using hd')
  | true =>
    rw [if_pos rfl, List.rdropWhile_concat_pos _ _ _ (by simp)]
    exact List.rdropWhile_concat_neg _ _ _ (by simpa using hd')

theorem trimDashes_dashed {ws : List (List Char)} (h : ∀ w ∈ ws, IsWord isNameChar w) (b : Bool)
    (hb : ws = [] → b = false) : trimDashes (dashed ws ++ if b then ['-'] else []) = dashed ws := by
  by_cases hne : ws = []
  · subst hne
    rw [hb rfl]
    rfl
  · obtain ⟨c, t, hhead, hc⟩ := head_intercalate ['-'] hne h
    obtain ⟨t', d, hlast, hd⟩ := last_intercalate ['-'] hne h
    rw [dashed, hhead]
    exact trimDashes_append hc (hhead.symm.trans hlast) hd b

theorem isWord_nameWords {t w : List Char} (h : w ∈ nameWords t) : IsWord isNameChar w :=
  isWord_of_mem_wordsFrom (by simp) h

theorem sanitizeName_eq (t : List Char) : sanitizeName t = dashed (nameWords t) := by
  obtain ⟨done, carry, hfold, hwords⟩ := foldl_sanitizeStep [] [] (t.map toLower)
  have hstart : written [] [] = ([], false) := rfl
  rw [hstart] at hfold
  rw [List.nil_append] at hwords
  have hword : ∀ w ∈ done ++ flush carry, IsWord isNameChar w := by
    intro w hw
    rw [hwords] at hw
    exact isWord_nameWords hw
  rw [sanitizeName, hfold, nameWords, words, ← hwords]
  by_cases hcarry : carry = []
  · subst hcarry
    rw [flush_nil, List.append_nil] at hword ⊢
    by_cases hdone : done = []
    · subst hdone
      rfl
    · rw [written_done hdone]
      exact trimDashes_dashed hword true fun h => absurd h hdone
  · rw [flush_of_ne_nil hcarry] at hword ⊢
    rw [written_carry hcarry]
    have htrim := trimDashes_dashed hword false fun _ => rfl
    rwa [if_neg (by simp), List.append_nil] at htrim

def spelling (t : PoolTenancy) (className : String) (s : Scope) : List Char :=
  dashed ((nameParts t className s).flatMap nameWords)

def SpelledAlike (l l' : CascadeLevel) : Prop :=
  trimDashes ((spelling l.tenancy l.class_.name l.scope).take 244) =
    trimDashes ((spelling l'.tenancy l'.class_.name l'.scope).take 244)

instance (l l' : CascadeLevel) : Decidable (SpelledAlike l l') :=
  inferInstanceAs (Decidable (_ = _))

theorem sanitizeName_nameParts (t : PoolTenancy) (className : String) (s : Scope) :
    sanitizeName (['-'].intercalate (nameParts t className s)) = spelling t className s := by
  have hmap : (['-'].intercalate (nameParts t className s)).map toLower =
      ['-'].intercalate ((nameParts t className s).map (List.map toLower)) := by
    induction nameParts t className s with
    | nil => rfl
    | cons w ws ih =>
      cases ws with
      | nil => simp
      | cons v ws =>
        rw [List.intercalate_cons_cons, List.map_append, List.map_append, ih]
        simp only [List.map_cons, List.intercalate_cons_cons]
        rfl
  rw [sanitizeName_eq, nameWords, hmap, words_intercalate isNameChar_dash, List.flatMap_map]
  rfl

theorem trimDashes_spelling (t : PoolTenancy) (className : String) (s : Scope) :
    trimDashes (spelling t className s) = spelling t className s := by
  have hword : ∀ w ∈ (nameParts t className s).flatMap nameWords, IsWord isNameChar w := by
    intro w hw
    obtain ⟨part, -, hpart⟩ := List.mem_flatMap.mp hw
    exact isWord_nameWords hpart
  have htrim := trimDashes_dashed hword false fun _ => rfl
  rwa [if_neg (by simp), List.append_nil] at htrim

section

variable {hash : Scope.Text → String}

theorem poolNameFor_eq (hhash : ∀ t, (hash t).length = 64) (t : PoolTenancy) (className : String) (s : Scope) :
    poolNameFor hash t className s = String.ofList
      (trimDashes ((spelling t className s).take 244) ++ '-' :: (poolDigest hash t s).toList.take 8) := by
  have hlen : ('-' :: (poolDigest hash t s).toList.take 8).length = 9 := by
    have h64 : (poolDigest hash t s).toList.length = 64 := hhash _
    rw [List.length_cons, List.length_take, h64]
    rfl
  simp only [poolNameFor, sanitizeName_nameParts, hlen]
  split
  · rfl
  · rename_i hshort
    have hfits : (spelling t className s).length ≤ 244 := by
      simp only [maxName] at hshort
      omega
    rw [List.take_of_length_le hfits, trimDashes_spelling]

theorem planLevel_eq {consumer : String} {claimScope : Scope} {c : ResolvedClass} {l : CascadeLevel}
    (h : planLevel hash consumer claimScope c = .ok l) :
    l.class_ = c ∧ l.tenancy.owner = c.project ∧ l.scopeDigest = poolDigest hash l.tenancy l.scope ∧
      l.poolName = poolNameFor hash l.tenancy l.class_.name l.scope ∧
      l.poolKey = poolStorageKey l.tenancy.owner l.poolName := by
  simp only [planLevel, bind, Except.bind] at h
  split at h
  · cases h
  · obtain rfl := Except.ok.inj h
    exact ⟨rfl, rfl, rfl, rfl, rfl⟩

theorem mem_of_mapM {f : ResolvedClass → Except Err CascadeLevel} {chain : List ResolvedClass}
    {levels : List CascadeLevel} (h : chain.mapM f = .ok levels) {l : CascadeLevel} (hl : l ∈ levels) :
    ∃ c ∈ chain, f c = .ok l := by
  induction chain generalizing levels with
  | nil =>
    obtain rfl := Except.ok.inj h
    cases hl
  | cons c chain ih =>
    rw [List.mapM_cons] at h
    cases hc : f c with
    | error e =>
      rw [hc] at h
      cases h
    | ok first =>
      cases hrest : chain.mapM f with
      | error e =>
        rw [hc, hrest] at h
        cases h
      | ok rest =>
        rw [hc, hrest] at h
        obtain rfl := Except.ok.inj h
        rcases List.mem_cons.mp hl with rfl | hl
        · exact ⟨c, by simp, hc⟩
        · obtain ⟨d, hd, hfd⟩ := ih hrest hl
          exact ⟨d, List.mem_cons_of_mem _ hd, hfd⟩

theorem mem_planLevels {consumer : String} {chain : List ResolvedClass} {claimScope : Scope}
    {levels : List CascadeLevel} (h : planLevels hash consumer chain claimScope = .ok levels) {l : CascadeLevel}
    (hl : l ∈ levels) : ∃ c ∈ chain, planLevel hash consumer claimScope c = .ok l := by
  simp only [planLevels] at h
  split at h
  · cases h
  · cases hmap : chain.mapM (planLevel hash consumer claimScope) with
    | error e =>
      rw [hmap] at h
      cases h
    | ok planned =>
      rw [hmap] at h
      obtain rfl := Except.ok.inj h
      exact mem_of_mapM hmap (List.mem_reverse.mp hl)

theorem planLevels_poolKey_ne_iff (hhash : ∀ t, (hash t).length = 64) {consumer consumer' : String}
    {chain chain' : List ResolvedClass} {claimScope claimScope' : Scope} {levels levels' : List CascadeLevel}
    (h : planLevels hash consumer chain claimScope = .ok levels)
    (h' : planLevels hash consumer' chain' claimScope' = .ok levels') {l l' : CascadeLevel} (hl : l ∈ levels)
    (hl' : l' ∈ levels') (howner : l.tenancy.owner = l'.tenancy.owner)
    (hdigest : (l.tenancy, l.scope) ≠ (l'.tenancy, l'.scope) →
      l.scopeDigest.toList.take 8 ≠ l'.scopeDigest.toList.take 8) :
    l.poolKey ≠ l'.poolKey ↔ (l.tenancy, l.scope) ≠ (l'.tenancy, l'.scope) ∨ ¬ SpelledAlike l l' := by
  obtain ⟨c, -, hc⟩ := mem_planLevels h hl
  obtain ⟨c', -, hc'⟩ := mem_planLevels h' hl'
  obtain ⟨-, -, hd, hname, hkey⟩ := planLevel_eq hc
  obtain ⟨-, -, hd', hname', hkey'⟩ := planLevel_eq hc'
  have hiff : l.poolKey = l'.poolKey ↔
      SpelledAlike l l' ∧ l.scopeDigest.toList.take 8 = l'.scopeDigest.toList.take 8 := by
    have hlen : ('-' :: l.scopeDigest.toList.take 8).length = ('-' :: l'.scopeDigest.toList.take 8).length := by
      have h64 : l.scopeDigest.toList.length = 64 := hd ▸ hhash _
      have h64' : l'.scopeDigest.toList.length = 64 := hd' ▸ hhash _
      simp only [List.length_cons, List.length_take, h64, h64']
    rw [hkey, hkey', hname, hname', poolNameFor_eq hhash, poolNameFor_eq hhash, ← hd, ← hd', howner]
    simp only [poolStorageKey, Key.object.injEq, true_and, String.ofList_inj]
    constructor
    · intro heq
      obtain ⟨hread, hsuffix⟩ := List.append_inj' heq hlen
      exact ⟨hread, (List.cons.inj hsuffix).2⟩
    · rintro ⟨hread, hsuffix⟩
      rw [hread, hsuffix]
  constructor
  · intro hne
    by_contra hcon
    simp only [not_or, not_not] at hcon
    obtain ⟨hsame, halike⟩ := hcon
    obtain ⟨htenancy, hscope⟩ := Prod.mk.inj hsame
    exact hne (hiff.mpr ⟨halike, by rw [hd, hd', htenancy, hscope]⟩)
  · rintro (hdiffer | hdiffer) heq
    · exact hdigest hdiffer (hiff.mp heq).2
    · exact hdiffer (hiff.mp heq).1

end

def sharedClass (name : String) : ResolvedClass :=
  ⟨⟨false, none, some .v4, none, none, [], [], none, 24, none, none, none⟩, name, "platform", name⟩

def zeroDigest : Scope.Text → String := fun _ => String.ofList (List.replicate 64 '0')

theorem zeroDigest_eq (t : Scope.Text) : zeroDigest t = String.ofList (List.replicate 64 '0') := rfl

theorem zeroDigest_length (t : Scope.Text) : (zeroDigest t).length = 64 := by
  rw [zeroDigest_eq t, String.length_ofList, List.length_replicate]

def sharedLevel (name : String) : CascadeLevel :=
  ⟨sharedClass name, ⟨"platform", ""⟩, [], zeroDigest [], poolNameFor zeroDigest ⟨"platform", ""⟩ name [],
    poolStorageKey "platform" (poolNameFor zeroDigest ⟨"platform", ""⟩ name [])⟩

theorem planLevels_shared (name : String) :
    planLevels zeroDigest "tenant" [sharedClass name] [] = .ok [sharedLevel name] := rfl

theorem planLevels_poolKey_ne_backbone :
    (sharedLevel "backbone").poolKey ≠ (sharedLevel "edge").poolKey :=
  (planLevels_poolKey_ne_iff zeroDigest_length (planLevels_shared "backbone") (planLevels_shared "edge")
    (List.mem_singleton.mpr rfl) (List.mem_singleton.mpr rfl) rfl (fun h => absurd rfl h)).mpr (Or.inr (by decide))

theorem planLevels_poolKey_collision :
    planLevels zeroDigest "tenant" [sharedClass "a.b"] [] = .ok [sharedLevel "a.b"] ∧
      planLevels zeroDigest "tenant" [sharedClass "a-b"] [] = .ok [sharedLevel "a-b"] ∧
      (sharedClass "a.b").name ≠ (sharedClass "a-b").name ∧
      (sharedLevel "a.b").poolKey = (sharedLevel "a-b").poolKey :=
  ⟨rfl, rfl, by decide, by decide⟩

end Ipam.Cascade
