import Ipam.Lib.PrefixCode
import Ipam.Watch.Changelog

namespace Ipam.Tenant

open Watch

def keyPrefix (name : KeyText) : KeyText :=
  if name = [] then [] else "project/".toList ++ name ++ ['/']

def trimSlash : KeyText → KeyText
  | '/' :: key => key
  | key => key

def applyPrefix (name key : KeyText) : KeyText :=
  if keyPrefix name = [] then key else keyPrefix name ++ trimSlash key

def resourceKey (project resource name : KeyText) : KeyText :=
  applyPrefix project ("/ipam.miloapis.com/".toList ++ resource ++ '/' :: name)

def special (c : Char) : Bool :=
  c = '\\' || c = '%' || c = '_'

def likeEscape (s : KeyText) : KeyText :=
  s.flatMap fun c => if special c then ['\\', c] else [c]

def resourceKeyPrefixFor (project resource : KeyText) : KeyText :=
  likeEscape (resourceKey project resource [])

def Literal (s : KeyText) : Prop :=
  ∀ c ∈ s, special c = false

instance (s : KeyText) : Decidable (Literal s) :=
  inferInstanceAs (Decidable (∀ c ∈ s, special c = false))

def ProjectName (s : KeyText) : Prop :=
  s ≠ [] ∧ '/' ∉ s

instance (s : KeyText) : Decidable (ProjectName s) :=
  inferInstanceAs (Decidable (_ ∧ _))

def OwnedBy (project key : KeyText) : Prop :=
  keyPrefix project <+: key

instance (project key : KeyText) : Decidable (OwnedBy project key) :=
  inferInstanceAs (Decidable (_ <+: _))

theorem keyPrefix_eq {name : KeyText} (h : name ≠ []) : keyPrefix name = "project/".toList ++ name ++ ['/'] :=
  if_neg h

theorem applyPrefix_eq {name : KeyText} (h : name ≠ []) (key : KeyText) :
    applyPrefix name key = keyPrefix name ++ trimSlash key := by
  rw [applyPrefix, if_neg (by simp [keyPrefix_eq h])]

theorem ownedBy_unique {p q key : KeyText} (hp : ProjectName p) (hq : ProjectName q) (hkey : OwnedBy p key)
    (hkey' : OwnedBy q key) : p = q := by
  obtain ⟨rest, rfl⟩ := hkey
  obtain ⟨rest', heq⟩ := hkey'
  rw [keyPrefix_eq hp.1, keyPrefix_eq hq.1] at heq
  simp only [List.append_assoc, List.append_cancel_left_eq, List.singleton_append] at heq
  exact (PrefixCode.append_sep_inj hq.2 hp.2 heq).1.symm

theorem like_any (text : KeyText) : like ['%'] text = true := by
  simp [like, List.any_eq_true]

theorem like_literal {c : Char} (hc : special c = false) (pattern text : KeyText) :
    like (c :: pattern) text = true ↔ ∃ rest, text = c :: rest ∧ like pattern rest = true := by
  simp only [special, Bool.or_eq_false_iff, decide_eq_false_iff_not] at hc
  obtain ⟨⟨hslash, hany⟩, hone⟩ := hc
  cases text with
  | nil => simp [like]
  | cons d text =>
    have hcons : like (c :: pattern) (d :: text) = (c == d && like pattern text) := by
      rw [like.eq_def]
      split <;> simp_all
    rw [hcons]
    constructor
    · intro h
      simp only [Bool.and_eq_true, beq_iff_eq] at h
      exact ⟨text, by rw [h.1], h.2⟩
    · rintro ⟨rest, heq, h⟩
      obtain ⟨rfl, rfl⟩ := List.cons.inj heq
      simp [h]

theorem like_literal_append {s : KeyText} (hs : Literal s) (pattern text : KeyText) :
    like (s ++ pattern) text = true ↔ ∃ rest, text = s ++ rest ∧ like pattern rest = true := by
  induction s generalizing text with
  | nil => simp
  | cons c s ih =>
    rw [List.cons_append, like_literal (hs c List.mem_cons_self)]
    constructor
    · rintro ⟨rest, rfl, h⟩
      obtain ⟨rest', rfl, h'⟩ := (ih (fun d hd => hs d (List.mem_cons_of_mem _ hd)) rest).mp h
      exact ⟨rest', rfl, h'⟩
    · rintro ⟨rest, rfl, h⟩
      exact ⟨s ++ rest, rfl, (ih (fun d hd => hs d (List.mem_cons_of_mem _ hd)) _).mpr ⟨rest, rfl, h⟩⟩

theorem like_escaped (c : Char) (pattern text : KeyText) :
    like ('\\' :: c :: pattern) text = true ↔ ∃ rest, text = c :: rest ∧ like pattern rest = true := by
  cases text with
  | nil => simp [like]
  | cons d text =>
    simp only [like, Bool.and_eq_true, beq_iff_eq, List.cons.injEq]
    constructor
    · rintro ⟨rfl, h⟩
      exact ⟨text, ⟨rfl, rfl⟩, h⟩
    · rintro ⟨rest, ⟨rfl, rfl⟩, h⟩
      exact ⟨rfl, h⟩

theorem like_likeEscape_append (s pattern text : KeyText) :
    like (likeEscape s ++ pattern) text = true ↔ ∃ rest, text = s ++ rest ∧ like pattern rest = true := by
  induction s generalizing text with
  | nil => simp [likeEscape]
  | cons c s ih =>
    have hstep : like (likeEscape (c :: s) ++ pattern) text = true ↔
        ∃ rest, text = c :: rest ∧ like (likeEscape s ++ pattern) rest = true := by
      cases hc : special c with
      | true =>
        have heq : likeEscape (c :: s) ++ pattern = '\\' :: c :: (likeEscape s ++ pattern) := by
          simp [likeEscape, hc]
        rw [heq, like_escaped]
      | false =>
        have heq : likeEscape (c :: s) ++ pattern = c :: (likeEscape s ++ pattern) := by
          simp [likeEscape, hc]
        rw [heq, like_literal hc]
    rw [hstep]
    constructor
    · rintro ⟨rest, rfl, h⟩
      obtain ⟨rest', rfl, h'⟩ := (ih rest).mp h
      exact ⟨rest', rfl, h'⟩
    · rintro ⟨rest, rfl, h⟩
      exact ⟨s ++ rest, rfl, (ih _).mpr ⟨rest, rfl, h⟩⟩

theorem like_likeEscape (s text : KeyText) : like (likeEscape s ++ ['%']) text = true ↔ s <+: text := by
  rw [like_likeEscape_append]
  constructor
  · rintro ⟨rest, rfl, -⟩
    exact ⟨rest, rfl⟩
  · rintro ⟨rest, rfl⟩
    exact ⟨rest, rfl, like_any rest⟩

/-- A text that the name, taken as a pattern, matches. A backslash at its end escapes the slash that follows. -/
def reading : KeyText → KeyText
  | [] => []
  | '%' :: s => 'x' :: reading s
  | '_' :: s => 'x' :: reading s
  | ['\\'] => []
  | '\\' :: c :: s => c :: reading s
  | c :: s => c :: reading s

theorem not_special {c : Char} {s : KeyText} (hany : c = '%' → False) (hone : c = '_' → False)
    (hlast : c = '\\' → s = [] → False) (hescape : ∀ d rest, c = '\\' → s = d :: rest → False) :
    special c = false := by
  have hslash : c ≠ '\\' := by
    intro hc
    cases s with
    | nil => exact hlast hc rfl
    | cons d rest => exact hescape d rest hc rfl
  simp only [special, Bool.or_eq_false_iff, decide_eq_false_iff_not]
  exact ⟨⟨hslash, hany⟩, hone⟩

theorem like_reading (s : KeyText) {pattern text : KeyText} (h : like pattern text = true) :
    like (s ++ '/' :: pattern) (reading s ++ '/' :: text) = true := by
  fun_induction reading s with
  | case1 => simpa [like] using h
  | case2 s ih =>
    simp only [List.cons_append, like, List.any_eq_true, List.mem_tails]
    exact ⟨_, List.suffix_cons _ _, ih⟩
  | case3 s ih => simpa [like] using ih
  | case4 => simpa [like] using h
  | case5 c s ih => simpa [like] using ih
  | case6 c s hany hone hlast hescape ih =>
    have hc : special c = false := not_special hany hone hlast hescape
    exact (like_literal hc _ _).mpr ⟨_, rfl, ih⟩

theorem reading_length (s : KeyText) : (reading s).length ≤ s.length := by
  fun_induction reading s <;> simp_all
  omega

theorem literal_of_reading {s : KeyText} (h : reading s = s) : Literal s := by
  fun_induction reading s with
  | case1 => simp [Literal]
  | case2 s ih => exact absurd (List.cons.inj h).1 (by decide)
  | case3 s ih => exact absurd (List.cons.inj h).1 (by decide)
  | case4 => cases h
  | case5 c s ih =>
    -- the text has lost a character
    have hlength := congrArg List.length h
    have := reading_length s
    simp only [List.length_cons] at hlength
    omega
  | case6 c s hany hone hlast hescape ih =>
    intro d hd
    rcases List.mem_cons.mp hd with rfl | hd
    · exact not_special hany hone hlast hescape
    · exact ih (List.cons.inj h).2 d hd

theorem mem_reading {s : KeyText} {c : Char} (h : c ∈ reading s) : c = 'x' ∨ c ∈ s := by
  fun_induction reading s with
  | case1 => cases h
  | case2 s ih =>
    rcases List.mem_cons.mp h with rfl | h
    · exact Or.inl rfl
    · exact (ih h).imp_right (List.mem_cons_of_mem _)
  | case3 s ih =>
    rcases List.mem_cons.mp h with rfl | h
    · exact Or.inl rfl
    · exact (ih h).imp_right (List.mem_cons_of_mem _)
  | case4 => cases h
  | case5 d s ih =>
    rcases List.mem_cons.mp h with rfl | h
    · exact Or.inr (List.mem_cons_of_mem _ List.mem_cons_self)
    · exact (ih h).imp_right fun h => List.mem_cons_of_mem _ (List.mem_cons_of_mem _ h)
  | case6 d s hany hone hlast hescape ih =>
    rcases List.mem_cons.mp h with rfl | h
    · exact Or.inr List.mem_cons_self
    · exact (ih h).imp_right (List.mem_cons_of_mem _)

theorem reading_projectName {s : KeyText} (hs : ProjectName s) (hlone : s ≠ ['\\']) : ProjectName (reading s) := by
  constructor
  · have hne := hs.1
    fun_cases reading s <;> simp_all
  · intro hslash
    rcases mem_reading hslash with h | h
    · cases h
    · exact hs.2 h

end Ipam.Tenant
