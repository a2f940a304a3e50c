import Ipam.Allocator.PoolTransactions
import Ipam.Cascade.PoolName
import Ipam.Cascade.Provision
import Ipam.Registry.Pools

namespace Ipam.Registry

open Allocation Allocator Cascade Database Transaction Words

def labelProvisionedBy : String := "ipam.miloapis.com/provisioned-by"

def labelScopeDigest : String := "ipam.miloapis.com/scope-digest"

def labelProvisionedFor : String := "ipam.miloapis.com/provisioned-for"

def provisionedLabels (level : CascadeLevel) : List (String × String) :=
  [(labelProvisionedBy, level.class_.name), (labelScopeDigest, level.scopeDigest)] ++
    if level.tenancy.consumer ≠ "" then [(labelProvisionedFor, level.tenancy.consumer)] else []

def isAlphanumeric (c : Char) : Bool :=
  isNameChar c || ('A' ≤ c && c ≤ 'Z')

def isLabelValue (v : String) : Bool :=
  v.length ≤ 63 && (v = "" || v.toList.head?.any isAlphanumeric && v.toList.getLast?.any isAlphanumeric &&
    v.toList.all fun c => isAlphanumeric c || c = '-' || c = '_' || c = '.')

def metadataValid (level : CascadeLevel) : Bool :=
  isDNS1123Subdomain level.poolName && (provisionedLabels level).all fun l => isLabelValue l.2

section

variable {ed : String} {level : CascadeLevel} {source : Key} {s s' : Db}

theorem provisionPool_stored (h : postgres.run (provisionPool ed level source) s = .ok ((), s')) :
    ∃ pool, s'.object level.poolKey = some (.pool pool) ∧ pool.ipFamily = level.class_.spec.ipFamily ∧
      pool.parentPoolRef = some (keyName source) := by
  obtain ⟨n, mid, carved, pool, block, b, -, -, -, hmat⟩ := provisionPool_after level source _ _ h
  have hobjects := hmat.reserves.objects.1
  have hstored : s'.ledger.objects level.poolKey =
      some (.pool (newProvisionedPool level (keyName source) n block).core) := by
    rw [hobjects]
    exact Function.update_self _ _ _
  obtain ⟨o, ho, hcore⟩ := Option.map_eq_some_iff.mp hstored
  cases o with
  | pool p =>
    have hp : p.core = (newProvisionedPool level (keyName source) n block).core := by simpa [Object.core] using hcore
    exact ⟨p, ho, congrArg IPPool.ipFamily hp, congrArg IPPool.parentPoolRef hp⟩
  | class_ | claim | allocation => cases hcore

theorem validateIPPool_family {pool : IPPool} {parent : String} (hparent : pool.parentPoolRef = some parent)
    (hfamily : pool.ipFamily.isSome = true) : validateIPPool pool = false := by
  have hnone : pool.ipFamily.isNone = false := by
    cases hf : pool.ipFamily with
    | none =>
      rw [hf] at hfamily
      cases hfamily
    | some f => rfl
  simp only [validateIPPool, hparent, hnone, Bool.and_false, Bool.false_and]

theorem validateUpdate_family {pool : IPPool} {parent : String} (hparent : pool.parentPoolRef = some parent)
    (hfamily : pool.ipFamily.isSome = true) (name : String) (obj : IPPool) :
    ipPoolStrategy.validateUpdate name (ipPoolStrategy.prepareForUpdate obj pool) pool = false := by
  cases hvalid : ipPoolStrategy.validateUpdate name (ipPoolStrategy.prepareForUpdate obj pool) pool with
  | false => rfl
  | true =>
    obtain ⟨hnew, hfamily', hparent'⟩ : validateIPPool (ipPoolStrategy.prepareForUpdate obj pool) = true ∧
        obj.ipFamily = pool.ipFamily ∧ obj.parentPoolRef = pool.parentPoolRef := by
      simp only [ipPoolStrategy, Bool.and_eq_true, decide_eq_true_eq] at hvalid ⊢
      exact ⟨hvalid.1.1.1.1, hvalid.1.1.2, hvalid.1.2⟩
    have hrefused : validateIPPool (ipPoolStrategy.prepareForUpdate obj pool) = false :=
      validateIPPool_family (hparent'.trans hparent) ((congrArg Option.isSome hfamily').trans hfamily)
    rw [hrefused] at hnew
    cases hnew

end

section

variable {hash : Scope.Text → String} {t : PoolTenancy} {className : String} {projected : Scope}

theorem mem_dashed {ws : List (List Char)} (h : ∀ w ∈ ws, IsWord isNameChar w) {c : Char} (hc : c ∈ dashed ws) :
    isNameChar c = true ∨ c = '-' := by
  induction ws with
  | nil => cases hc
  | cons w ws ih =>
    obtain ⟨hw, hws⟩ := List.forall_mem_cons.mp h
    cases ws with
    | nil =>
      simp only [dashed, List.intercalate_singleton] at hc
      exact Or.inl (hw.2 c hc)
    | cons v ws =>
      simp only [dashed, List.intercalate_cons_cons, List.mem_append] at hc
      rcases hc with (hc | hc) | hc
      · exact Or.inl (hw.2 c hc)
      · exact Or.inr (by simpa using hc)
      · exact ih hws hc

theorem toLower_nameChar {c : Char} (h : isNameChar c = true) : toLower c = c := by
  have hval : 97 ≤ c.toNat ∧ c.toNat ≤ 122 ∨ 48 ≤ c.toNat ∧ c.toNat ≤ 57 := by
    simpa [isNameChar, Char.le_def, UInt32.le_iff_toNat_le] using h
  have hupper : ¬ ('A' ≤ c ∧ c ≤ 'Z') := by
    simp only [Char.le_def, UInt32.le_iff_toNat_le]
    rintro ⟨hlo, hhi⟩
    have hlo' : 65 ≤ c.toNat := hlo
    have hhi' : c.toNat ≤ 90 := hhi
    omega
  rw [toLower, if_neg hupper, if_neg (by omega), if_neg (by omega)]

theorem exists_nameChar (h : isDNS1123Subdomain className = true) : ∃ c ∈ className.toList, isNameChar c = true := by
  simp only [isDNS1123Subdomain, Bool.and_eq_true] at h
  have hjoin : ['.'].intercalate (className.toList.splitOn '.') = className.toList := List.intercalate_splitOn '.'
  cases hlabels : className.toList.splitOn '.' with
  | nil => exact absurd hlabels (List.splitOn_ne_nil _ _)
  | cons label rest =>
    rw [hlabels] at h hjoin
    have hhead := (Bool.and_eq_true_iff.mp (Bool.and_eq_true_iff.mp (List.all_eq_true.mp h.2 label (by simp))).1).1
    cases label with
    | nil => cases hhead
    | cons c label =>
      refine ⟨c, ?_, by simpa using hhead⟩
      rw [← hjoin]
      cases rest <;> simp [List.intercalate]

theorem words_ne_nil {carry l : List Char} (h : carry ≠ [] ∨ ∃ c ∈ l, isNameChar c = true) :
    wordsFrom isNameChar carry l ≠ [] := by
  induction l generalizing carry with
  | nil =>
    have hcarry : carry ≠ [] := by simpa using h
    simp [wordsFrom, flush_of_ne_nil hcarry]
  | cons a l ih =>
    simp only [wordsFrom]
    split
    · exact ih (Or.inl (by simp))
    · rename_i ha
      rcases h with hcarry | ⟨c, hc, hname⟩
      · simp [flush_of_ne_nil hcarry]
      · rcases List.mem_cons.mp hc with rfl | hc
        · exact absurd hname ha
        · have hrest := @ih [] (Or.inr ⟨c, hc, hname⟩)
          simp [hrest]

theorem head_spelling (h : isDNS1123Subdomain className = true) :
    ∃ c rest, spelling t className projected = c :: rest ∧ isNameChar c = true := by
  obtain ⟨c, hc, hname⟩ := exists_nameChar h
  have hwords : nameWords className.toList ≠ [] :=
    words_ne_nil (Or.inr ⟨c, List.mem_map.mpr ⟨c, hc, toLower_nameChar hname⟩, hname⟩)
  refine head_intercalate ['-'] ?_ ?_
  · simp [nameParts, hwords]
  · intro w hw
    obtain ⟨part, -, hpart⟩ := List.mem_flatMap.mp hw
    exact isWord_nameWords hpart

theorem mem_spelling {c : Char} (hc : c ∈ spelling t className projected) : isNameChar c = true ∨ c = '-' := by
  refine mem_dashed ?_ hc
  intro w hw
  obtain ⟨part, -, hpart⟩ := List.mem_flatMap.mp hw
  exact isWord_nameWords hpart

theorem trimDashes_head {c : Char} {rest : List Char} (hc : isNameChar c = true) :
    ∃ rest', trimDashes (c :: rest) = c :: rest' ∧ rest' <+: rest := by
  have hdash : c ≠ '-' := by
    rintro rfl
    rw [isNameChar_dash] at hc
    cases hc
  have hdrop : (c :: rest).dropWhile (· = '-') = c :: rest := by simp [hdash]
  rw [trimDashes, hdrop]
  have hprefix := List.rdropWhile_prefix (fun c => decide (c = '-')) (c :: rest)
  cases hkept : (c :: rest).rdropWhile (fun c => decide (c = '-')) with
  | nil =>
    have hall := List.rdropWhile_eq_nil_iff.mp hkept c (by simp)
    exact absurd (by simpa using hall) hdash
  | cons d kept =>
    rw [hkept] at hprefix
    obtain ⟨rfl, hrest⟩ := List.cons_prefix_cons.mp hprefix
    exact ⟨kept, rfl, hrest⟩

theorem isDNS1123Subdomain_poolNameFor (hhash : ∀ t, (hash t).length = 64)
    (hhex : ∀ t, ∀ c ∈ (hash t).toList, isNameChar c = true) (h : isDNS1123Subdomain className = true) :
    isDNS1123Subdomain (poolNameFor hash t className projected) = true := by
  obtain ⟨c, rest, hspelling, hc⟩ := @head_spelling t className projected h
  have h64 : (poolDigest hash t projected).toList.length = 64 := hhash _
  obtain ⟨kept, htrim, hkept⟩ := @trimDashes_head c (rest.take 243) hc
  obtain ⟨digits, last, hdigits⟩ := List.eq_nil_or_concat ((poolDigest hash t projected).toList.take 8) |>.resolve_left
    (List.ne_nil_of_length_pos (by rw [List.length_take, h64]; decide))
  rw [List.concat_eq_append] at hdigits
  have hdigit : ∀ d ∈ digits ++ [last], isNameChar d = true := by
    intro d hd
    rw [← hdigits] at hd
    exact hhex _ d (List.mem_of_mem_take hd)
  have hlength : digits.length + 1 = 8 := by
    have := congrArg List.length hdigits
    rw [List.length_take, h64, List.length_append] at this
    exact this.symm
  have hname : poolNameFor hash t className projected = String.ofList (c :: (kept ++ '-' :: digits) ++ [last]) := by
    rw [poolNameFor_eq hhash, hspelling, List.take_succ_cons, htrim, hdigits]
    simp
  have hchars : ∀ d ∈ c :: (kept ++ '-' :: digits) ++ [last], isNameChar d = true ∨ d = '-' := by
    intro d hd
    simp only [List.cons_append, List.append_assoc, List.mem_cons, List.mem_append, List.not_mem_nil, or_false] at hd
    rcases hd with rfl | hd | rfl | hd | rfl
    · exact Or.inl hc
    · have hmem : d ∈ spelling t className projected := by
        rw [hspelling]
        exact List.mem_cons_of_mem _ (List.mem_of_mem_take (hkept.subset hd))
      exact mem_spelling hmem
    · exact Or.inr rfl
    · exact Or.inl (hdigit d (by simp [hd]))
    · exact Or.inl (hdigit d (by simp))
  have hsplit : (c :: (kept ++ '-' :: digits) ++ [last]).splitOn '.' = [c :: (kept ++ '-' :: digits) ++ [last]] := by
    apply List.splitOnP_eq_singleton
    intro d hd
    have hdot : d ≠ '.' := by
      rintro rfl
      rcases hchars _ hd with hd | hd
      · exact absurd hd (by decide)
      · exact absurd hd (by decide)
    simpa using hdot
  have hkeptlen : kept.length ≤ 243 := hkept.length_le.trans (List.length_take_le _ _)
  have hlast : (c :: (kept ++ '-' :: digits) ++ [last]).getLast? = some last := List.getLast?_concat
  simp only [isDNS1123Subdomain, hname, String.toList_ofList, hsplit, List.all_cons, List.all_nil, Bool.and_true,
    Bool.and_eq_true, decide_eq_true_eq, hlast, Option.any_some, List.all_eq_true, Bool.or_eq_true]
  refine ⟨?_, ⟨hc, hdigit last (by simp)⟩, hchars⟩
  rw [String.length_ofList]
  simp only [List.length_append, List.length_cons, List.length_nil]
  omega

end

section

variable {hash : Scope.Text → String} (hhash : ∀ t, (hash t).length = 64)

include hhash

theorem not_isLabelValue_digest {level : CascadeLevel}
    (h : level.scopeDigest = poolDigest hash level.tenancy level.scope) : isLabelValue level.scopeDigest = false := by
  have h64 : level.scopeDigest.length = 64 := by
    rw [h]
    exact hhash _
  simp [isLabelValue, h64]

theorem provisionedPool_refused (hhex : ∀ t, ∀ c ∈ (hash t).toList, isNameChar c = true) {consumer ed : String}
    {claimScope : Scope} {c : ResolvedClass} {level : CascadeLevel} {source : Key} {s s' : Db}
    (hclass : c.spec.source = none ∧ validateIPClass c.name c.spec = true) (hname : isDNS1123Subdomain c.name = true)
    (hplan : planLevel hash consumer claimScope c = .ok level)
    (hrun : postgres.run (provisionPool ed level source) s = .ok ((), s')) :
    ∃ pool, s'.object level.poolKey = some (.pool pool) ∧ isDNS1123Subdomain level.poolName = true ∧
      validateIPPool pool = false ∧ metadataValid level = false ∧
      ∀ (name : String) (obj : IPPool),
        ipPoolStrategy.validateUpdate name (ipPoolStrategy.prepareForUpdate obj pool) pool = false := by
  obtain ⟨hlevel, -, hdigest, hpoolName, -⟩ := planLevel_eq hplan
  obtain ⟨pool, hstored, hfamily, hparent⟩ := provisionPool_stored hrun
  have hsome : pool.ipFamily.isSome = true := by
    have hvalid := hclass.2
    simp only [validateIPClass, hclass.1, validateDefinition, Bool.and_eq_true] at hvalid
    rw [hfamily, hlevel]
    exact hvalid.1.1.1.1.1
  refine ⟨pool, hstored, ?_, validateIPPool_family hparent hsome, ?_, ?_⟩
  · rw [hpoolName, hlevel]
    exact isDNS1123Subdomain_poolNameFor hhash hhex hname
  · simp [metadataValid, provisionedLabels, not_isLabelValue_digest hhash hdigest]
  · exact fun name obj => validateUpdate_family hparent hsome name obj

end

theorem isNameChar_zeroDigest (t : Scope.Text) : ∀ c ∈ (zeroDigest t).toList, isNameChar c = true := by
  intro c hc
  rw [zeroDigest_eq t, String.toList_ofList] at hc
  rw [List.eq_of_mem_replicate hc]
  decide

theorem provisionedPool_refused_backbone :
    ∃ level s' pool, planLevel zeroDigest "east" [] (sharedClass "backbone") = .ok level ∧
      postgres.run (provisionPool "none" level officeKey) (poolDb officeKey officePool .firstFit) = .ok ((), s') ∧
      s'.object level.poolKey = some (.pool pool) ∧ validateIPPool pool = false ∧ metadataValid level = false := by
  obtain ⟨level, hplan⟩ : ∃ level, planLevel zeroDigest "east" [] (sharedClass "backbone") = .ok level := ⟨_, rfl⟩
  have hok : ((planLevel zeroDigest "east" [] (sharedClass "backbone")).toOption.bind fun level =>
      (postgres.run (provisionPool "none" level officeKey) (poolDb officeKey officePool .firstFit)).toOption).isSome =
      true := by
    decide +kernel
  rw [hplan] at hok
  cases hrun : postgres.run (provisionPool "none" level officeKey) (poolDb officeKey officePool .firstFit) with
  | error e =>
    simp only [Except.toOption, Option.bind_some, hrun] at hok
    cases hok
  | ok result =>
    obtain ⟨⟨⟩, s'⟩ := result
    obtain ⟨pool, hstored, -, hinvalid, hmetadata, -⟩ :=
      provisionedPool_refused zeroDigest_length isNameChar_zeroDigest ⟨rfl, by decide⟩ (by decide) hplan hrun
    exact ⟨level, s', pool, hplan, hrun, hstored, hinvalid, hmetadata⟩

theorem provisionedPool_invalid :
    validateIPClass "backbone" (sharedClass "backbone").spec = true ∧
      planLevel zeroDigest "tenant" [] (sharedClass "backbone") = .ok (sharedLevel "backbone") ∧
      isLabelValue (sharedLevel "backbone").scopeDigest = false ∧
      validateIPPool (newProvisionedPool (sharedLevel "backbone") "office" 24 (tenNet 0 24)) = false ∧
      ipPoolStrategy.validateUpdate "backbone"
        { newProvisionedPool (sharedLevel "backbone") "office" 24 (tenNet 0 24) with strategy := .bestFit }
        (newProvisionedPool (sharedLevel "backbone") "office" 24 (tenNet 0 24)) = false :=
  ⟨by decide, rfl, by decide +kernel, by decide +kernel, by decide +kernel⟩

end Ipam.Registry
