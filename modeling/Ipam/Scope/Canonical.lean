import Ipam.Lib.PrefixCode

/-!
The canonical forms of scopes. Texts are the bytes of Go strings.
-/

namespace Ipam.Scope

open PrefixCode

abbrev Text := List (Fin 256)

def text (s : String) : Text :=
  s.toByteArray.data.toList.map UInt8.toFin

theorem text_injective : Function.Injective text := by
  intro s t h
  have hbytes := List.map_injective_iff.mpr (fun _ _ hab => UInt8.toFin_inj.mp hab) h
  exact String.toByteArray_inj.mp (ByteArray.ext (Array.toList_inj.mp hbytes))

structure ScopeRef where
  apiGroup : Text
  kind : Text
  name : Text
  deriving DecidableEq, Repr

structure ScopeMap where
  entries : List (Text × ScopeRef)
  nodup : (entries.map Prod.fst).Nodup
  deriving DecidableEq

namespace ScopeMap

def ref (s : ScopeMap) (role : Text) : Option ScopeRef :=
  s.entries.lookup role

def len (s : ScopeMap) : ℕ :=
  s.entries.length

end ScopeMap

structure PoolTenancy where
  owner : Text
  consumer : Text
  deriving DecidableEq, Repr

def canonicalPoolVersion : Text := text "ipam.scope.v4"

def canonicalAddressSpaceVersion : Text := text "ipam.scope.v3"

def sortStrings (ts : List Text) : List Text :=
  ts.insertionSort (· ≤ ·)

def byte (c : Char) : Fin 256 :=
  Fin.ofNat 256 c.toNat

def itoa (n : ℕ) : Text :=
  (Nat.toDigits 10 n).map byte

def writeField (v : Text) : Text :=
  itoa v.length ++ byte ':' :: v

def roles (s : ScopeMap) : List Text :=
  sortStrings (s.entries.map Prod.fst)

def refAt (s : ScopeMap) (role : Text) : ScopeRef :=
  (s.ref role).getD ⟨[], [], []⟩

def canonicalPool (t : PoolTenancy) (s : ScopeMap) : Text :=
  writeField canonicalPoolVersion ++ writeField t.owner ++ writeField t.consumer ++ writeField (itoa s.len) ++
    (roles s).flatMap fun role =>
      writeField role ++ writeField (refAt s role).apiGroup ++ writeField (refAt s role).kind ++
        writeField (refAt s role).name

def canonicalAddressSpace (tenant : Text) (s : ScopeMap) : Text :=
  writeField canonicalAddressSpaceVersion ++ writeField (itoa s.len) ++
    (roles s).flatMap fun role =>
      writeField role ++ writeField tenant ++ writeField (refAt s role).apiGroup ++
        writeField (refAt s role).kind ++ writeField (refAt s role).name

def uniq (rs : List Text) : List Text :=
  rs.foldl (fun acc r => if r ∈ acc then acc else acc ++ [r]) []

def roleSetKey (rs : List Text) : Text :=
  writeField (itoa (uniq rs).length) ++ (sortStrings (uniq rs)).flatMap writeField

theorem val_byte {n : ℕ} {c : Char} (h : c ∈ Nat.toDigits 10 n) : (byte c).val = c.toNat ∧ c.toNat ≤ 57 := by
  obtain ⟨-, hle⟩ := Char.isDigit_iff_toNat.mp (Nat.isDigit_of_mem_toDigits (by decide) (by decide) h)
  exact ⟨Nat.mod_eq_of_lt (lt_of_le_of_lt hle (by decide)), hle⟩

theorem itoa_injective : Function.Injective itoa := by
  -- the digits can be read back from their bytes
  have hread : ∀ n, (itoa n).map (fun b => Char.ofNat b.val) = Nat.toDigits 10 n := by
    intro n
    rw [itoa, List.map_map]
    refine (List.map_congr_left ?_).trans (List.map_id _)
    intro c hc
    simp only [Function.comp_apply, (val_byte hc).1, Char.ofNat_toNat, id]
  intro n m h
  have hdigits : Nat.toDigits 10 n = Nat.toDigits 10 m := by
    rw [← hread n, ← hread m, h]
  have hvalue := congrArg (fun ds => Nat.ofDigitChars 10 ds 0) hdigits
  simpa only [Nat.ofDigitChars_toDigits (by decide : 1 < 10) le_rfl] using hvalue

theorem colon_notMem_itoa (n : ℕ) : byte ':' ∉ itoa n := by
  intro h
  obtain ⟨c, hc, heq⟩ := List.mem_map.mp h
  obtain ⟨hval, hle⟩ := val_byte hc
  rw [heq] at hval
  have hcolon : (byte ':').val = 58 := by decide
  omega

theorem writeField_unambiguous : Unambiguous writeField := by
  have hfield := lengthPrefixed (terminated itoa_injective colon_notMem_itoa)
  simp only [List.append_assoc, List.singleton_append] at hfield
  exact hfield

def sortedEntries (s : ScopeMap) : List (Text × ScopeRef) :=
  (roles s).map fun role => (role, refAt s role)

theorem length_sortedEntries (s : ScopeMap) : (sortedEntries s).length = s.len := by
  simp only [sortedEntries, roles, sortStrings, List.length_map, List.length_insertionSort, ScopeMap.len]

theorem lookup_map_mk {α β : Type} [BEq α] [LawfulBEq α] {l : List α} (f : α → β) {a : α} (h : a ∈ l) :
    (l.map fun x => (x, f x)).lookup a = some (f a) := by
  induction l with
  | nil => cases h
  | cons x l ih =>
    by_cases hx : a = x
    · subst hx
      simp
    · have hmem := (List.mem_cons.mp h).resolve_left hx
      simp [List.lookup_cons, beq_false_of_ne hx, ih hmem]

theorem mem_roles {s : ScopeMap} {role : Text} : role ∈ roles s ↔ (s.ref role).isSome := by
  rw [roles, sortStrings, (List.perm_insertionSort _ _).mem_iff, ScopeMap.ref, List.lookup_isSome_iff]
  simp only [List.mem_map, beq_iff_eq]
  constructor
  · rintro ⟨e, he, rfl⟩
    exact ⟨e, he, rfl⟩
  · rintro ⟨e, he, rfl⟩
    exact ⟨e, he, rfl⟩

theorem lookup_sortedEntries (s : ScopeMap) (role : Text) : (sortedEntries s).lookup role = s.ref role := by
  by_cases hmem : role ∈ roles s
  · obtain ⟨ref, href⟩ := Option.isSome_iff_exists.mp (mem_roles.mp hmem)
    rw [sortedEntries, lookup_map_mk _ hmem, refAt, href]
    rfl
  · have hnone : (sortedEntries s).lookup role = none := by
      rw [List.lookup_eq_none_iff]
      intro e he
      obtain ⟨r, hr, rfl⟩ := List.mem_map.mp he
      simpa using fun heq : role = r => hmem (heq ▸ hr)
    rw [mem_roles, Option.not_isSome_iff_eq_none] at hmem
    rw [hnone, hmem]

theorem sortStrings_eq {l l' : List Text} (hl : l.Nodup) (hl' : l'.Nodup) (h : ∀ r, r ∈ l ↔ r ∈ l') :
    sortStrings l = sortStrings l' := by
  have hperm : l.Perm l' := (List.perm_ext_iff_of_nodup hl hl').mpr h
  apply List.Perm.eq_of_sortedLE List.sortedLE_insertionSort List.sortedLE_insertionSort
  exact (List.perm_insertionSort _ _).trans (hperm.trans (List.perm_insertionSort _ _).symm)

theorem sortedEntries_eq_iff (s s' : ScopeMap) : sortedEntries s = sortedEntries s' ↔ ∀ role, s.ref role = s'.ref role := by
  constructor
  · intro h role
    rw [← lookup_sortedEntries s, ← lookup_sortedEntries s', h]
  · intro h
    have hroles : roles s = roles s' := by
      apply sortStrings_eq s.nodup s'.nodup
      intro role
      rw [← (List.perm_insertionSort (· ≤ ·) _).mem_iff, ← (List.perm_insertionSort (· ≤ ·) (s'.entries.map _)).mem_iff]
      exact mem_roles.trans (by rw [h role]; exact mem_roles.symm)
    have hrefs : refAt s = refAt s' := by
      funext role
      rw [refAt, refAt, h role]
    rw [sortedEntries, sortedEntries, hroles, hrefs]

theorem count_unambiguous : Unambiguous fun n => writeField (itoa n) :=
  writeField_unambiguous.comp itoa_injective

theorem poolGroup_unambiguous : Unambiguous fun e : Text × ScopeRef =>
    writeField e.1 ++ writeField e.2.apiGroup ++ writeField e.2.kind ++ writeField e.2.name := by
  have hfields := ((writeField_unambiguous.pair writeField_unambiguous).pair writeField_unambiguous).pair
    writeField_unambiguous
  apply hfields.comp (f := fun e : Text × ScopeRef => (((e.1, e.2.apiGroup), e.2.kind), e.2.name))
  rintro ⟨role, apiGroup, kind, name⟩ ⟨role', apiGroup', kind', name'⟩ h
  simpa [and_assoc] using h

theorem addressGroup_unambiguous : Unambiguous fun e : (Text × Text) × ScopeRef =>
    writeField e.1.1 ++ writeField e.1.2 ++ writeField e.2.apiGroup ++ writeField e.2.kind ++ writeField e.2.name := by
  have hfields := (((writeField_unambiguous.pair writeField_unambiguous).pair writeField_unambiguous).pair
    writeField_unambiguous).pair writeField_unambiguous
  apply hfields.comp (f := fun e : (Text × Text) × ScopeRef => (((e.1, e.2.apiGroup), e.2.kind), e.2.name))
  rintro ⟨⟨role, tenant⟩, apiGroup, kind, name⟩ ⟨⟨role', tenant'⟩, apiGroup', kind', name'⟩ h
  simpa [and_assoc] using h

theorem canonicalPool_eq (t : PoolTenancy) (s : ScopeMap) :
    canonicalPool t s = writeField canonicalPoolVersion ++ (writeField t.owner ++ (writeField t.consumer ++
      (writeField (itoa (sortedEntries s).length) ++ (sortedEntries s).flatMap fun e =>
        writeField e.1 ++ writeField e.2.apiGroup ++ writeField e.2.kind ++ writeField e.2.name))) := by
  rw [length_sortedEntries]
  simp only [canonicalPool, sortedEntries, List.flatMap_map, List.append_assoc]

theorem canonicalPool_inj (t t' : PoolTenancy) (s s' : ScopeMap) :
    canonicalPool t s = canonicalPool t' s' ↔ t = t' ∧ ∀ role, s.ref role = s'.ref role := by
  rw [← sortedEntries_eq_iff]
  constructor
  · intro h
    rw [canonicalPool_eq, canonicalPool_eq] at h
    obtain ⟨-, htenancy⟩ := writeField_unambiguous _ _ _ _ h
    obtain ⟨howner, hrest⟩ := writeField_unambiguous _ _ _ _ htenancy
    obtain ⟨hconsumer, hentries⟩ := writeField_unambiguous _ _ _ _ hrest
    have hcode := (count_unambiguous.counted poolGroup_unambiguous) (sortedEntries s) (sortedEntries s') [] []
    simp only [List.append_nil] at hcode
    obtain ⟨owner, consumer⟩ := t
    obtain ⟨owner', consumer'⟩ := t'
    exact ⟨by simp only [PoolTenancy.mk.injEq]; exact ⟨howner, hconsumer⟩, (hcode hentries).1⟩
  · rintro ⟨rfl, h⟩
    rw [canonicalPool_eq, canonicalPool_eq, h]

def qualifiedEntries (tenant : Text) (s : ScopeMap) : List ((Text × Text) × ScopeRef) :=
  (sortedEntries s).map fun e => ((e.1, tenant), e.2)

theorem canonicalAddressSpace_eq (tenant : Text) (s : ScopeMap) :
    canonicalAddressSpace tenant s = writeField canonicalAddressSpaceVersion ++
      (writeField (itoa (qualifiedEntries tenant s).length) ++ (qualifiedEntries tenant s).flatMap fun e =>
        writeField e.1.1 ++ writeField e.1.2 ++ writeField e.2.apiGroup ++ writeField e.2.kind ++
          writeField e.2.name) := by
  rw [qualifiedEntries, List.length_map, length_sortedEntries]
  simp only [canonicalAddressSpace, sortedEntries, List.map_map, List.flatMap_map, Function.comp_def,
    List.append_assoc]

theorem qualifiedEntries_eq_iff (tenant tenant' : Text) (s s' : ScopeMap) :
    qualifiedEntries tenant s = qualifiedEntries tenant' s' ↔
      (∀ role, s.ref role = s'.ref role) ∧ ((∃ role, s.ref role ≠ none) → tenant = tenant') := by
  rw [← sortedEntries_eq_iff]
  constructor
  · intro h
    have hentries : sortedEntries s = sortedEntries s' := by
      have hforget := congrArg (List.map fun e : (Text × Text) × ScopeRef => (e.1.1, e.2)) h
      simpa only [qualifiedEntries, List.map_map, Function.comp_def, Prod.mk.eta, List.map_id'] using hforget
    refine ⟨hentries, ?_⟩
    rintro ⟨role, hrole⟩
    have hmem : role ∈ roles s := mem_roles.mpr (Option.isSome_iff_ne_none.mpr hrole)
    obtain ⟨e, he⟩ : ∃ e, e ∈ sortedEntries s := ⟨_, List.mem_map_of_mem hmem⟩
    rw [qualifiedEntries, qualifiedEntries, ← hentries] at h
    have hsame := List.map_inj_left.mp h e he
    simpa using hsame
  · rintro ⟨hentries, htenant⟩
    rw [qualifiedEntries, qualifiedEntries, ← hentries]
    apply List.map_inj_left.mpr
    intro e he
    obtain ⟨role, hrole, rfl⟩ := List.mem_map.mp he
    rw [htenant ⟨role, Option.isSome_iff_ne_none.mp (mem_roles.mp hrole)⟩]

theorem canonicalAddressSpace_inj (tenant tenant' : Text) (s s' : ScopeMap) :
    canonicalAddressSpace tenant s = canonicalAddressSpace tenant' s' ↔
      (∀ role, s.ref role = s'.ref role) ∧ ((∃ role, s.ref role ≠ none) → tenant = tenant') := by
  rw [← qualifiedEntries_eq_iff]
  constructor
  · intro h
    rw [canonicalAddressSpace_eq, canonicalAddressSpace_eq] at h
    obtain ⟨-, hentries⟩ := writeField_unambiguous _ _ _ _ h
    have hcode := (count_unambiguous.counted addressGroup_unambiguous) (qualifiedEntries tenant s)
      (qualifiedEntries tenant' s') [] []
    simp only [List.append_nil] at hcode
    exact (hcode hentries).1
  · intro h
    rw [canonicalAddressSpace_eq, canonicalAddressSpace_eq, h]

theorem canonicalPool_ne_canonicalAddressSpace (t : PoolTenancy) (s : ScopeMap) (tenant : Text) (s' : ScopeMap) :
    canonicalPool t s ≠ canonicalAddressSpace tenant s' := by
  intro h
  rw [canonicalPool_eq, canonicalAddressSpace_eq] at h
  obtain ⟨hversion, -⟩ := writeField_unambiguous _ _ _ _ h
  exact absurd hversion (by decide)

theorem foldl_uniq (rs acc : List Text) (hacc : acc.Nodup) :
    (rs.foldl (fun acc r => if r ∈ acc then acc else acc ++ [r]) acc).Nodup ∧
      ∀ r, r ∈ rs.foldl (fun acc r => if r ∈ acc then acc else acc ++ [r]) acc ↔ r ∈ acc ∨ r ∈ rs := by
  induction rs generalizing acc with
  | nil => exact ⟨hacc, by simp⟩
  | cons x rs ih =>
    simp only [List.foldl_cons]
    by_cases hx : x ∈ acc
    · rw [if_pos hx]
      refine ⟨(ih acc hacc).1, fun r => ?_⟩
      rw [(ih acc hacc).2 r, List.mem_cons]
      constructor
      · exact fun h => h.imp_right Or.inr
      · rintro (h | rfl | h)
        · exact Or.inl h
        · exact Or.inl hx
        · exact Or.inr h
    · rw [if_neg hx]
      have hnext : (acc ++ [x]).Nodup := List.concat_eq_append ▸ hacc.concat hx
      refine ⟨(ih _ hnext).1, fun r => ?_⟩
      rw [(ih _ hnext).2 r]
      simp [or_assoc]

theorem uniq_spec (rs : List Text) : (uniq rs).Nodup ∧ ∀ r, r ∈ uniq rs ↔ r ∈ rs := by
  obtain ⟨hnodup, hmem⟩ := foldl_uniq rs [] List.nodup_nil
  exact ⟨hnodup, fun r => (hmem r).trans (by simp)⟩

theorem roleSetKey_eq_iff (rs rs' : List Text) : roleSetKey rs = roleSetKey rs' ↔ ∀ r, r ∈ rs ↔ r ∈ rs' := by
  obtain ⟨hnodup, hmem⟩ := uniq_spec rs
  obtain ⟨hnodup', hmem'⟩ := uniq_spec rs'
  have hlen : ∀ l : List Text, (sortStrings l).length = l.length := List.length_insertionSort _
  have hset : ∀ (l : List Text) (r : Text), r ∈ sortStrings l ↔ r ∈ l := fun l r => (List.perm_insertionSort _ _).mem_iff
  constructor
  · intro h r
    simp only [roleSetKey] at h
    rw [← hlen (uniq rs), ← hlen (uniq rs')] at h
    have hcode := (count_unambiguous.counted writeField_unambiguous) (sortStrings (uniq rs)) (sortStrings (uniq rs')) [] []
    simp only [List.append_nil] at hcode
    rw [← hmem, ← hmem', ← hset (uniq rs), ← hset (uniq rs'), (hcode h).1]
  · intro h
    have hsort : sortStrings (uniq rs) = sortStrings (uniq rs') :=
      sortStrings_eq hnodup hnodup' fun r => by rw [hmem, hmem', h]
    rw [roleSetKey, roleSetKey, ← hlen (uniq rs), ← hlen (uniq rs'), hsort]

theorem canonical_separates :
    (∀ t t' s s', canonicalPool t s = canonicalPool t' s' ↔ t = t' ∧ ∀ role, s.ref role = s'.ref role) ∧
    (∀ tenant tenant' s s', canonicalAddressSpace tenant s = canonicalAddressSpace tenant' s' ↔
      (∀ role, s.ref role = s'.ref role) ∧ ((∃ role, s.ref role ≠ none) → tenant = tenant')) ∧
    (∀ t s tenant s', canonicalPool t s ≠ canonicalAddressSpace tenant s') ∧
    ∀ rs rs', roleSetKey rs = roleSetKey rs' ↔ ∀ r, r ∈ rs ↔ r ∈ rs' :=
  ⟨canonicalPool_inj, canonicalAddressSpace_inj, canonicalPool_ne_canonicalAddressSpace, roleSetKey_eq_iff⟩

end Ipam.Scope
