import Ipam.Database.Tables
import Ipam.Tenant.Keys

namespace Ipam.Tenant

open Allocation Database Watch

/-- The columns of `ipam_objects` that the scan of the root pools reads. The data is none where it does not decode. -/
structure NamedRow where
  key : KeyText
  name : String
  data : Option Object
  deriving DecidableEq, Repr

def rootPool (o : NamedRow) : Option (String × IPNet) :=
  match o.data with
  | some (.pool pool) => if pool.parentPoolRef = none then pool.cidr.map fun range => (o.name, range) else none
  | _ => none

def tenantRootPoolCIDRs (project : KeyText) (excludeName : String) (rows : List NamedRow) : List (String × IPNet) :=
  (rows.filter fun o => like (resourceKey project "ippools".toList [] ++ ['%']) o.key ∧
    o.name ≠ excludeName).filterMap rootPool

def resourceText : Resource → KeyText
  | .ippools => "ippools".toList
  | .ipclasses => "ipclasses".toList
  | .ipclaims => "ipclaims".toList
  | .ipallocations => "ipallocations".toList

/-- The row of a stored object. Only allocation rows have keys of another kind. -/
def namedRow : Key × Object → Option NamedRow
  | (.object project resource namespace_ name, o) =>
    some ⟨resourceKey project.toList (resourceText resource)
      (if namespace_ = "" then name.toList else namespace_.toList ++ '/' :: name.toList), name, some o⟩
  | (.reservation _ _, _) => none

/-- The pattern that a project's name makes for the scan of its root pools matches all keys of its own pools. -/
def SeesOwn (project : KeyText) : Prop :=
  ∀ path, like (resourceKey project "ippools".toList [] ++ ['%']) (resourceKey project "ippools".toList path) = true

theorem resourceKey_append (project resource path : KeyText) :
    resourceKey project resource path = resourceKey project resource [] ++ path := by
  simp only [resourceKey, applyPrefix]
  split
  · simp
  · simp [trimSlash]

theorem like_own {s : KeyText} (hs : '\\' ∉ s) {pattern text : KeyText} (h : like pattern text = true) :
    like (s ++ pattern) (s ++ text) = true := by
  induction s with
  | nil => exact h
  | cons c s ih =>
    rw [List.mem_cons, not_or] at hs
    have hrest := ih hs.2
    by_cases hany : c = '%'
    · subst hany
      simp only [List.cons_append, like, List.any_eq_true, List.mem_tails]
      exact ⟨_, List.suffix_cons _ _, hrest⟩
    by_cases hone : c = '_'
    · subst hone
      exact hrest
    · have hc : special c = false := by
        simp [special, hany, hone, Ne.symm hs.1]
      exact (like_literal hc _ _).mpr ⟨_, rfl, hrest⟩

theorem seesOwn_of_not_mem {project : KeyText} (h : '\\' ∉ project) : SeesOwn project := by
  intro path
  rw [resourceKey_append project _ path]
  apply like_own
  · simp only [resourceKey, applyPrefix, keyPrefix]
    split <;> simp_all [trimSlash]
  · exact like_any path

theorem mem_tenantRootPoolCIDRs {project namespace_ name excludeName : String} {pool : IPPool} {range : IPNet}
    {objects : List (Key × Object)} (hsees : SeesOwn project.toList)
    (hstored : (.object project .ippools namespace_ name, .pool pool) ∈ objects) (hne : name ≠ excludeName)
    (hroot : pool.parentPoolRef = none) (hrange : pool.cidr = some range) :
    (name, range) ∈ tenantRootPoolCIDRs project.toList excludeName (objects.filterMap namedRow) := by
  simp only [tenantRootPoolCIDRs, List.mem_filterMap, List.mem_filter]
  refine ⟨_, ⟨⟨_, hstored, rfl⟩, decide_eq_true ⟨hsees _, hne⟩⟩, ?_⟩
  simp [rootPool, hroot, hrange]

end Ipam.Tenant
