import Ipam.Database.Tables
import Ipam.Lib.Cutting

namespace Ipam.Cli

open Cutting Database

inductive UsageError where
  | entry (arg : String)
  | unknownRole (role value : String)
  | qualifier (role value : String)
  | twice (role : String) (names : String × String)
  deriving DecidableEq, Repr

def isSpace (c : Char) : Bool :=
  c.toNat ∈ [0x20, 0x85, 0xA0, 0x1680, 0x2028, 0x2029, 0x202f, 0x205f, 0x3000] ||
    (9 ≤ c.toNat && c.toNat ≤ 13) || (0x2000 ≤ c.toNat && c.toNat ≤ 0x200a)

def wellKnownScopeRoles : String → Option (String × String)
  | "network" => some ("networking.datumapis.com", "Network")
  | "location" => some ("networking.datumapis.com", "Location")
  | "project" => some ("resourcemanager.miloapis.com", "Project")
  | _ => none

def parseScopeValue (role : String) (value : List Char) : Except UsageError ScopeRef :=
  match cut '/' value with
  | none =>
    match wellKnownScopeRoles role with
    | none => .error (.unknownRole role (.ofList value))
    | some (apiGroup, kind) => .ok ⟨apiGroup, kind, .ofList value⟩
  | some (qualifier, name) =>
    match cut '.' qualifier with
    | none => .error (.qualifier role (.ofList value))
    | some (kind, apiGroup) =>
      if kind = [] ∨ apiGroup = [] ∨ name = [] then .error (.qualifier role (.ofList value))
      else .ok ⟨.ofList apiGroup, .ofList kind, .ofList name⟩

def parseScopeEntry (arg : String) : Except UsageError (String × ScopeRef) :=
  match cut '=' arg.toList with
  | none => .error (.entry arg)
  | some (role, value) =>
    if trim isSpace role = [] ∨ trim isSpace value = [] then .error (.entry arg)
    else (parseScopeValue (.ofList (trim isSpace role)) (trim isSpace value)).map (Prod.mk (.ofList (trim isSpace role)))

def addEntry (scope : Scope) (arg : String) : Except UsageError Scope := do
  let (role, ref) ← parseScopeEntry arg
  match scope.lookup role with
  | some prev => .error (.twice role (prev.name, ref.name))
  | none => .ok (scope ++ [(role, ref)])

def buildScope (args : List String) : Except UsageError Scope :=
  args.foldlM addEntry []

def formatScopeRef (ref : ScopeRef) : String :=
  ref.kind ++ "." ++ ref.apiGroup ++ "/" ++ ref.name

def pasted (e : String × ScopeRef) : String :=
  e.1 ++ "=" ++ formatScopeRef e.2

structure Printable (ref : ScopeRef) : Prop where
  kind_ne : ref.kind ≠ ""
  kind_cut : '.' ∉ ref.kind.toList
  kind : ∀ c ∈ ref.kind.toList.head?, isSpace c = false
  group_ne : ref.apiGroup ≠ ""
  qualifier_cut : '/' ∉ ref.kind.toList ++ '.' :: ref.apiGroup.toList
  name_ne : ref.name ≠ ""
  name : ∀ c ∈ ref.name.toList.getLast?, isSpace c = false

structure Writable (e : String × ScopeRef) : Prop where
  role_ne : e.1 ≠ ""
  role_cut : '=' ∉ e.1.toList
  role : Trimmed isSpace e.1.toList
  ref : Printable e.2

section

variable {e : String × ScopeRef} {ref : ScopeRef} {role : String} {value : List Char}

theorem toList_formatScopeRef (ref : ScopeRef) : (formatScopeRef ref).toList =
    (ref.kind.toList ++ '.' :: ref.apiGroup.toList) ++ '/' :: ref.name.toList := by
  simp [formatScopeRef]

theorem Printable.trimmed (h : Printable ref) : Trimmed isSpace (formatScopeRef ref).toList := by
  have hkind : ref.kind.toList ≠ [] := by simpa using h.kind_ne
  have hname : ref.name.toList ≠ [] := by simpa using h.name_ne
  rw [toList_formatScopeRef]
  constructor
  · rw [List.append_assoc, List.head?_append_of_ne_nil _ hkind]
    exact h.kind
  · rw [List.getLast?_append_of_ne_nil _ (List.cons_ne_nil _ _), List.getLast?_cons_of_ne_nil hname]
    exact h.name

theorem parseScopeValue_format (h : Printable ref) : parseScopeValue role (formatScopeRef ref).toList = .ok ref := by
  rw [parseScopeValue, toList_formatScopeRef, cut_append h.qualifier_cut]
  simp [cut_append h.kind_cut, h.kind_ne, h.group_ne, h.name_ne]

theorem parse_pasted (h : Writable e) : parseScopeEntry (pasted e) = .ok e := by
  have hcut : cut '=' (pasted e).toList = some (e.1.toList, (formatScopeRef e.2).toList) := by
    rw [pasted, String.toList_append, String.toList_append, List.append_assoc]
    exact cut_append h.role_cut
  have hvalue : (formatScopeRef e.2).toList ≠ [] := by simp [toList_formatScopeRef]
  rw [parseScopeEntry, hcut]
  simp [trim_of_trimmed h.role, trim_of_trimmed h.ref.trimmed, h.role_ne, hvalue, parseScopeValue_format h.ref, Except.map]

-- every reference of the table is one that the qualified form can carry
theorem wellKnownScopeRoles_spec {apiGroup kind : String} (h : wellKnownScopeRoles role = some (apiGroup, kind)) :
    kind ≠ "" ∧ '.' ∉ kind.toList ∧ kind.toList.head?.all (fun c => !isSpace c) = true ∧ apiGroup ≠ "" ∧
      '/' ∉ kind.toList ++ '.' :: apiGroup.toList := by
  unfold wellKnownScopeRoles at h
  split at h
  case h_4 => cases h
  all_goals
    obtain ⟨rfl, rfl⟩ := Prod.mk.inj (Option.some.inj h)
    decide

theorem printable_of_parse (hvalue : Trimmed isSpace value) (hne : value ≠ [])
    (h : parseScopeValue role value = .ok ref) : Printable ref := by
  unfold parseScopeValue at h
  split at h
  · split at h
    · cases h
    · rename_i apiGroup kind hknown
      obtain rfl := Except.ok.inj h
      obtain ⟨hkind_ne, hdot, hhead, hgroup_ne, hqualifier⟩ := wellKnownScopeRoles_spec hknown
      refine ⟨hkind_ne, hdot, fun c hc => ?_, hgroup_ne, hqualifier, by simpa using hne, ?_⟩
      · rw [Option.mem_def.mp hc] at hhead
        simpa using hhead
      · rw [String.toList_ofList]
        exact hvalue.last
  · rename_i qualifier name hcut
    obtain ⟨hqualifier, rfl⟩ := cut_eq_some hcut
    split at h
    · cases h
    · rename_i kind apiGroup hkind
      obtain ⟨hdot, rfl⟩ := cut_eq_some hkind
      split_ifs at h with hempty
      obtain rfl := Except.ok.inj h
      simp only [not_or] at hempty
      obtain ⟨hkind_ne, hgroup_ne, hname_ne⟩ := hempty
      obtain ⟨hhead, hlast⟩ := hvalue
      rw [List.append_assoc, List.head?_append_of_ne_nil _ hkind_ne] at hhead
      rw [List.getLast?_append_of_ne_nil _ (List.cons_ne_nil _ _), List.getLast?_cons_of_ne_nil hname_ne] at hlast
      constructor
      case kind_ne | group_ne | name_ne => simpa
      all_goals simpa only [String.toList_ofList]

theorem writable_of_parse {arg : String} (h : parseScopeEntry arg = .ok e) : Writable e := by
  unfold parseScopeEntry at h
  split at h
  · cases h
  · rename_i role value hcut
    split_ifs at h with hempty
    rw [not_or] at hempty
    cases href : parseScopeValue (.ofList (trim isSpace role)) (trim isSpace value) with
    | error err =>
      rw [href] at h
      cases h
    | ok ref =>
      rw [href] at h
      obtain rfl := Except.ok.inj h
      have hrole : '=' ∉ trim isSpace role := fun hmem => (cut_eq_some hcut).1 (trim_subset _ _ hmem)
      refine ⟨by simpa using hempty.1, ?_, ?_, printable_of_parse (trim_trimmed _ _) hempty.2 href⟩
      · rwa [String.toList_ofList]
      · rw [String.toList_ofList]
        exact trim_trimmed _ _

structure Typed (scope : Scope) : Prop where
  roles : (scope.map Prod.fst).Nodup
  entries : ∀ e ∈ scope, Writable e

theorem lookup_eq_none_iff {scope : Scope} : scope.lookup role = none ↔ role ∉ scope.map Prod.fst := by
  rw [List.lookup_eq_none_iff]
  constructor
  · intro h hmem
    obtain ⟨p, hp, rfl⟩ := List.mem_map.mp hmem
    simpa using h p hp
  · intro h p hp
    simpa using fun heq : role = p.1 => h (heq ▸ List.mem_map_of_mem hp)

theorem addEntry_typed {scope scope' : Scope} {arg : String} (hscope : Typed scope)
    (h : addEntry scope arg = .ok scope') : Typed scope' := by
  unfold addEntry at h
  cases hparse : parseScopeEntry arg with
  | error err =>
    rw [hparse] at h
    cases h
  | ok e =>
    simp only [hparse, bind, Except.bind] at h
    cases hrole : scope.lookup e.1 with
    | some prev =>
      rw [hrole] at h
      cases h
    | none =>
      rw [hrole] at h
      obtain rfl := Except.ok.inj h
      have hnew := lookup_eq_none_iff.mp hrole
      refine ⟨?_, fun e' he' => ?_⟩
      · simpa using List.Nodup.concat hnew hscope.roles
      · rcases List.mem_append.mp he' with he' | he'
        · exact hscope.entries e' he'
        · rw [List.mem_singleton.mp he']
          exact writable_of_parse hparse

theorem foldlM_typed {args : List String} {scope scope' : Scope} (hscope : Typed scope)
    (h : args.foldlM addEntry scope = .ok scope') : Typed scope' := by
  induction args generalizing scope with
  | nil =>
    obtain rfl := Except.ok.inj h
    exact hscope
  | cons arg args ih =>
    rw [List.foldlM_cons] at h
    cases hadd : addEntry scope arg with
    | error err =>
      rw [hadd] at h
      cases h
    | ok next =>
      rw [hadd] at h
      exact ih (addEntry_typed hscope hadd) h

theorem foldlM_pasted {scope rest : Scope} (h : Typed (scope ++ rest)) :
    (rest.map pasted).foldlM addEntry scope = .ok (scope ++ rest) := by
  induction rest generalizing scope with
  | nil =>
    rw [List.append_nil]
    rfl
  | cons e rest ih =>
    have hrole : e.1 ∉ scope.map Prod.fst := by
      have hroles := h.roles
      rw [List.map_append, List.map_cons] at hroles
      exact fun hmem => (List.nodup_append.mp hroles).2.2 _ hmem _ List.mem_cons_self rfl
    have hadd : addEntry scope (pasted e) = .ok (scope ++ [e]) := by
      rw [addEntry, parse_pasted (h.entries e (by simp))]
      simp only [bind, Except.bind, lookup_eq_none_iff.mpr hrole]
    rw [List.append_cons] at h
    rw [List.map_cons, List.foldlM_cons, hadd, List.append_cons scope e rest]
    exact ih h

end

theorem scope_typed_iff (scope : Scope) :
    ((∃ args, buildScope args = .ok scope) ↔ Typed scope) ∧
      (buildScope (scope.map pasted) = .ok scope ↔ Typed scope) := by
  have hsound : ∀ args, buildScope args = .ok scope → Typed scope := fun args => foldlM_typed ⟨.nil, by simp⟩
  have hpasted (h : Typed scope) : buildScope (scope.map pasted) = .ok scope := @foldlM_pasted [] scope h
  exact ⟨⟨fun ⟨args, h⟩ => hsound args h, fun h => ⟨_, hpasted h⟩⟩, hsound _, hpasted⟩

end Ipam.Cli
