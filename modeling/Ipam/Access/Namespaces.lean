import Ipam.Lib.PrefixCode
import Ipam.Watch.Changelog

/-!
The namespace checker. Any number of `State` calls run at once; each goes through critical sections under the mutex
and requests to the control plane of its project, and other calls come between. What a control plane answers is left
open; its answers are kept beside the checker, with the clock where the code reads it.
-/

namespace Ipam.Access

open Watch (KeyText)

inductive NamespaceState where
  | unknown
  | live
  | terminating
  | missing
  deriving DecidableEq, Repr

-- in nanoseconds
def liveTTL : ℕ := 10 * 10 ^ 9

def servingTTL : ℕ := 5 * 60 * 10 ^ 9

def maxLiveEntries : ℕ := 4096

abbrev Expiries := List (KeyText × ℕ)

def Expiries.set (m : Expiries) (key : KeyText) (expiry : ℕ) : Expiries :=
  (key, expiry) :: m.filter fun e => e.1 ≠ key

def Expiries.fresh (m : Expiries) (key : KeyText) (now : ℕ) : Bool :=
  m.any fun e => e.1 = key ∧ now < e.2

def cacheLive (live : Expiries) (key : KeyText) (now : ℕ) : Expiries :=
  if live.length < maxLiveEntries then Expiries.set live key (now + liveTTL)
  else
    let unexpired := live.filter fun e => now < e.2
    Expiries.set (if unexpired.length < maxLiveEntries then unexpired else []) key (now + liveTTL)

def refuseNamespace : NamespaceState → Bool
  | .terminating => true
  | .missing => true
  | _ => false

def liveKey (project nspace : KeyText) : KeyText :=
  project ++ '/' :: nspace

inductive Call where
  | idle
  | begun (project nspace : KeyText)
  | get (project nspace : KeyText)
  | found (project nspace : KeyText)
  | caching (project nspace : KeyText) (now : ℕ)
  | absent (project nspace : KeyText)
  | probe (project nspace : KeyText)
  | serves (project nspace : KeyText)
  | answered (project nspace : KeyText) (state : NamespaceState) (clock : ℕ)
  deriving DecidableEq, Repr

/-- The cache with the calls under way, and what the control planes answered so far: `sightings` and `probes` with the
clock that the entry was computed from. -/
structure Checker where
  now : ℕ
  live : Expiries
  serving : Expiries
  calls : ℕ → Call
  sightings : List (KeyText × KeyText × ℕ)
  absences : List (KeyText × KeyText)
  terminations : List (KeyText × KeyText)
  probes : List (KeyText × ℕ)

namespace Checker

def initial (now : ℕ) : Checker :=
  ⟨now, [], [], fun _ => .idle, [], [], [], []⟩

def at_ (c : Checker) (i : ℕ) (call : Call) : Checker :=
  { c with calls := Function.update c.calls i call }

inductive Step (c : Checker) : Checker → Prop
  | tick (d : ℕ) : Step c { c with now := c.now + d }
  | call (i : ℕ) (p n : KeyText) (h : c.calls i = .idle) : Step c (c.at_ i (.begun p n))
  | blank (i : ℕ) {p n : KeyText} (h : c.calls i = .begun p n) (hblank : p = [] ∨ n = []) :
      Step c (c.at_ i (.answered p n .unknown c.now))
  | hit (i : ℕ) {p n : KeyText} (h : c.calls i = .begun p n) (hp : p ≠ []) (hn : n ≠ [])
      (hfresh : c.live.fresh (liveKey p n) c.now = true) : Step c (c.at_ i (.answered p n .live c.now))
  | miss (i : ℕ) {p n : KeyText} (h : c.calls i = .begun p n) (hp : p ≠ []) (hn : n ≠ [])
      (hfresh : c.live.fresh (liveKey p n) c.now = false) : Step c (c.at_ i (.get p n))
  -- no client for the project, or an error that is not a 404
  | failed (i : ℕ) {p n : KeyText} (h : c.calls i = .get p n) : Step c (c.at_ i (.answered p n .unknown c.now))
  | terminating (i : ℕ) {p n : KeyText} (h : c.calls i = .get p n) :
      Step c { c.at_ i (.answered p n .terminating c.now) with terminations := (p, n) :: c.terminations }
  | found (i : ℕ) {p n : KeyText} (h : c.calls i = .get p n) : Step c (c.at_ i (.found p n))
  | sight (i : ℕ) {p n : KeyText} (h : c.calls i = .found p n) :
      Step c { c.at_ i (.caching p n c.now) with sightings := (p, n, c.now) :: c.sightings }
  | cache (i : ℕ) {p n : KeyText} {t : ℕ} (h : c.calls i = .caching p n t) :
      Step c { c.at_ i (.answered p n .live t) with live := cacheLive c.live (liveKey p n) t }
  | notFound (i : ℕ) {p n : KeyText} (h : c.calls i = .get p n) :
      Step c { c.at_ i (.absent p n) with absences := (p, n) :: c.absences }
  | served (i : ℕ) {p n : KeyText} (h : c.calls i = .absent p n) (hfresh : c.serving.fresh p c.now = true) :
      Step c (c.at_ i (.answered p n .missing c.now))
  -- the entry is read under the mutex and the clock after it, so it may have been renewed when it is found expired
  | ask (i : ℕ) {p n : KeyText} (h : c.calls i = .absent p n) : Step c (c.at_ i (.probe p n))
  | unreachable (i : ℕ) {p n : KeyText} (h : c.calls i = .probe p n) : Step c (c.at_ i (.answered p n .unknown c.now))
  | reachable (i : ℕ) {p n : KeyText} (h : c.calls i = .probe p n) : Step c (c.at_ i (.serves p n))
  | mark (i : ℕ) {p n : KeyText} (h : c.calls i = .serves p n) :
      Step c { c.at_ i (.answered p n .missing c.now) with
        serving := c.serving.set p (c.now + servingTTL), probes := (p, c.now) :: c.probes }

abbrev Reaches : Checker → Checker → Prop :=
  Relation.ReflTransGen Step

end Checker

theorem Expiries.mem_set {m : Expiries} {key : KeyText} {expiry : ℕ} {e : KeyText × ℕ} (h : e ∈ m.set key expiry) :
    e = (key, expiry) ∨ e ∈ m := by
  rcases List.mem_cons.mp h with h | h
  · exact .inl h
  · exact .inr (List.mem_of_mem_filter h)

theorem Expiries.fresh_iff {m : Expiries} {key : KeyText} {now : ℕ} :
    m.fresh key now = true ↔ ∃ expiry, (key, expiry) ∈ m ∧ now < expiry := by
  simp only [Expiries.fresh, List.any_eq_true, decide_eq_true_eq]
  constructor
  · rintro ⟨⟨k, expiry⟩, hmem, rfl, hlt⟩
    exact ⟨expiry, hmem, hlt⟩
  · rintro ⟨expiry, hmem, hlt⟩
    exact ⟨_, hmem, rfl, hlt⟩

theorem mem_cacheLive {live : Expiries} {key : KeyText} {now : ℕ} {e : KeyText × ℕ}
    (h : e ∈ cacheLive live key now) : e = (key, now + liveTTL) ∨ e ∈ live := by
  unfold cacheLive at h
  split at h
  · exact Expiries.mem_set h
  · refine (Expiries.mem_set h).imp_right fun hmem => ?_
    split at hmem
    · exact List.mem_of_mem_filter hmem
    · exact absurd hmem List.not_mem_nil

theorem length_cacheLive (live : Expiries) (key : KeyText) (now : ℕ) :
    (cacheLive live key now).length ≤ maxLiveEntries := by
  have hset {m : Expiries} (h : m.length < maxLiveEntries) :
      (m.set key (now + liveTTL)).length ≤ maxLiveEntries := by
    have hfilter := List.length_filter_le (fun e => decide (e.1 ≠ key)) m
    simp only [Expiries.set, List.length_cons]
    omega
  unfold cacheLive
  split
  · exact hset ‹_›
  · apply hset
    split
    · assumption
    · decide

def Call.Grounded (c : Checker) : Call → Prop
  | .caching p n t => t ≤ c.now ∧ (p, n, t) ∈ c.sightings
  | .absent p n | .probe p n | .serves p n => (p, n) ∈ c.absences
  | .answered p n .live t =>
    ∃ s ∈ c.sightings, liveKey s.1 s.2.1 = liveKey p n ∧ s.2.2 ≤ t ∧ t < s.2.2 + liveTTL
  | .answered p n .terminating _ => (p, n) ∈ c.terminations
  | .answered p n .missing t =>
    (p, n) ∈ c.absences ∧ ∃ q ∈ c.probes, q.1 = p ∧ q.2 ≤ t ∧ t < q.2 + servingTTL
  | _ => True

structure Sound (c : Checker) : Prop where
  bounded : c.live.length ≤ maxLiveEntries
  live : ∀ e ∈ c.live, ∃ s ∈ c.sightings, liveKey s.1 s.2.1 = e.1 ∧ s.2.2 ≤ c.now ∧ e.2 = s.2.2 + liveTTL
  serving : ∀ e ∈ c.serving, ∃ q ∈ c.probes, q.1 = e.1 ∧ q.2 ≤ c.now ∧ e.2 = q.2 + servingTTL
  calls : ∀ i, (c.calls i).Grounded c

structure Later (c d : Checker) : Prop where
  now : c.now ≤ d.now
  sightings : c.sightings ⊆ d.sightings
  absences : c.absences ⊆ d.absences
  terminations : c.terminations ⊆ d.terminations
  probes : c.probes ⊆ d.probes

theorem Call.Grounded.mono {c d : Checker} {call : Call} (h : call.Grounded c) (hd : Later c d) :
    call.Grounded d := by
  cases call with
  | caching p n t => exact ⟨h.1.trans hd.now, hd.sightings h.2⟩
  | absent p n | probe p n | serves p n => exact hd.absences h
  | answered p n state t =>
    cases state with
    | live =>
      obtain ⟨s, hs, hrest⟩ := h
      exact ⟨s, hd.sightings hs, hrest⟩
    | terminating => exact hd.terminations h
    | missing =>
      obtain ⟨ha, q, hq, hrest⟩ := h
      exact ⟨hd.absences ha, q, hd.probes hq, hrest⟩
    | unknown => trivial
  | _ => trivial

theorem Sound.advance {c d : Checker} {i : ℕ} {call : Call} (h : Sound c) (hd : Later c d)
    (hcalls : d.calls = Function.update c.calls i call) (hcall : call.Grounded d)
    (hbounded : d.live.length ≤ maxLiveEntries)
    (hlive : ∀ e ∈ d.live, e ∈ c.live ∨ ∃ s ∈ d.sightings, liveKey s.1 s.2.1 = e.1 ∧ s.2.2 ≤ d.now ∧
      e.2 = s.2.2 + liveTTL)
    (hserving : ∀ e ∈ d.serving, e ∈ c.serving ∨ ∃ q ∈ d.probes, q.1 = e.1 ∧ q.2 ≤ d.now ∧
      e.2 = q.2 + servingTTL) : Sound d := by
  refine ⟨hbounded, fun e he => ?_, fun e he => ?_, fun k => ?_⟩
  · rcases hlive e he with he | he
    · obtain ⟨s, hs, hkey, hnow, hexpiry⟩ := h.live e he
      exact ⟨s, hd.sightings hs, hkey, hnow.trans hd.now, hexpiry⟩
    · exact he
  · rcases hserving e he with he | he
    · obtain ⟨q, hq, hkey, hnow, hexpiry⟩ := h.serving e he
      exact ⟨q, hd.probes hq, hkey, hnow.trans hd.now, hexpiry⟩
    · exact he
  · rw [hcalls]
    by_cases hk : k = i
    · rw [hk, Function.update_self]
      exact hcall
    · rw [Function.update_of_ne hk]
      exact (h.calls k).mono hd

theorem Sound.at_ {c : Checker} {i : ℕ} {call : Call} (h : Sound c) (hcall : call.Grounded c) :
    Sound (c.at_ i call) := by
  have hd : Later c (c.at_ i call) := ⟨le_rfl, fun _ h => h, fun _ h => h, fun _ h => h, fun _ h => h⟩
  exact h.advance hd rfl (hcall.mono hd) h.bounded (fun _ he => .inl he) (fun _ he => .inl he)

theorem Sound.step {c d : Checker} (h : Sound c) (hstep : c.Step d) : Sound d := by
  have hcall {i : ℕ} {call : Call} (hi : c.calls i = call) : call.Grounded c := hi ▸ h.calls i
  cases hstep with
  | tick k =>
    have hd : Later c { c with now := c.now + k } :=
      ⟨Nat.le_add_right _ _, fun _ h => h, fun _ h => h, fun _ h => h, fun _ h => h⟩
    exact h.advance hd (Function.update_eq_self 0 c.calls).symm ((h.calls 0).mono hd) h.bounded
      (fun _ he => .inl he) (fun _ he => .inl he)
  | call | blank | miss | failed | found | unreachable => exact h.at_ trivial
  | hit i hi hp hn hfresh =>
    obtain ⟨expiry, hmem, hlt⟩ := Expiries.fresh_iff.mp hfresh
    obtain ⟨s, hs, hkey, hnow, hexpiry⟩ := h.live _ hmem
    exact h.at_ ⟨s, hs, hkey, hnow, hexpiry ▸ hlt⟩
  | terminating i hi =>
    exact h.advance ⟨le_rfl, fun _ h => h, fun _ h => h, List.subset_cons_self _ _, fun _ h => h⟩ rfl
      List.mem_cons_self h.bounded (fun _ he => .inl he) (fun _ he => .inl he)
  | sight i hi =>
    exact h.advance ⟨le_rfl, List.subset_cons_self _ _, fun _ h => h, fun _ h => h, fun _ h => h⟩ rfl
      ⟨le_rfl, List.mem_cons_self⟩ h.bounded (fun _ he => .inl he) (fun _ he => .inl he)
  | @cache i p n t hi =>
    obtain ⟨hnow, hs⟩ := hcall hi
    have hanswer : (Call.answered p n .live t).Grounded c :=
      ⟨(p, n, t), hs, rfl, le_rfl, Nat.lt_add_of_pos_right (by decide)⟩
    have hd : Later c { c.at_ i (.answered p n .live t) with live := cacheLive c.live (liveKey p n) t } :=
      ⟨le_rfl, fun _ h => h, fun _ h => h, fun _ h => h, fun _ h => h⟩
    refine h.advance hd rfl (hanswer.mono hd) (length_cacheLive _ _ _) (fun e he => ?_) (fun _ he => .inl he)
    rcases mem_cacheLive he with rfl | he
    · exact .inr ⟨(p, n, t), hs, rfl, hnow, rfl⟩
    · exact .inl he
  | notFound i hi =>
    exact h.advance ⟨le_rfl, fun _ h => h, List.subset_cons_self _ _, fun _ h => h, fun _ h => h⟩ rfl
      List.mem_cons_self h.bounded (fun _ he => .inl he) (fun _ he => .inl he)
  | served i hi hfresh =>
    obtain ⟨expiry, hmem, hlt⟩ := Expiries.fresh_iff.mp hfresh
    obtain ⟨q, hq, hkey, hnow, hexpiry⟩ := h.serving _ hmem
    exact h.at_ ⟨hcall hi, q, hq, hkey, hnow, hexpiry ▸ hlt⟩
  | ask i hi | reachable i hi =>
    have habsent := hcall hi
    exact h.at_ habsent
  | @mark i p n hi =>
    have hlt : c.now < c.now + servingTTL := Nat.lt_add_of_pos_right (by decide)
    refine h.advance ⟨le_rfl, fun _ h => h, fun _ h => h, fun _ h => h, List.subset_cons_self _ _⟩ rfl
      ⟨hcall hi, (p, c.now), List.mem_cons_self, rfl, le_rfl, hlt⟩ h.bounded (fun _ he => .inl he) (fun e he => ?_)
    rcases Expiries.mem_set he with rfl | he
    · exact .inr ⟨(p, c.now), List.mem_cons_self, rfl, le_rfl, rfl⟩
    · exact .inl he

theorem reaches_sound {now : ℕ} {c : Checker} (h : (Checker.initial now).Reaches c) : Sound c := by
  induction h with
  | refl =>
    exact ⟨Nat.zero_le _, fun _ he => absurd he List.not_mem_nil, fun _ he => absurd he List.not_mem_nil,
      fun _ => trivial⟩
  | tail _ hstep ih => exact ih.step hstep

-- call 0 finds the namespace and caches it, call 1 reads the cache, call 2 asks for one that is not there
theorem exists_checks : ∃ c : Checker, (Checker.initial 0).Reaches c ∧
    c.calls 1 = .answered ['p'] ['n'] .live 5 ∧ c.calls 2 = .answered ['p'] ['m'] .missing 5 ∧
    ∀ s ∈ c.sightings, '/' ∉ s.1 := by
  have hcached : (Checker.initial 0).Reaches _ :=
    .head (.call 0 ['p'] ['n'] rfl) (.head (.miss 0 rfl (by decide) (by decide) rfl) (.head (.found 0 rfl)
      (.head (.sight 0 rfl) (.head (.cache 0 rfl) (.single (.tick 5))))))
  have hread : (Checker.initial 0).Reaches _ :=
    (hcached.tail (.call 1 ['p'] ['n'] rfl)).tail (.hit 1 rfl (by decide) (by decide) rfl)
  have hasked : (Checker.initial 0).Reaches _ :=
    (((hread.tail (.call 2 ['p'] ['m'] rfl)).tail (.miss 2 rfl (by decide) (by decide) rfl)).tail
      (.notFound 2 rfl)).tail (.ask 2 rfl)
  exact ⟨_, (hasked.tail (.reachable 2 rfl)).tail (.mark 2 rfl), rfl, rfl, by decide⟩

theorem liveAnswer_fresh (now : ℕ) (c : Checker) (h : (Checker.initial now).Reaches c) (i : ℕ) (p n : KeyText) (t : ℕ)
    (hanswer : c.calls i = .answered p n .live t) (hp : '/' ∉ p) (hslash : ∀ s ∈ c.sightings, '/' ∉ s.1) :
    ∃ t₀ ≤ t, t < t₀ + liveTTL ∧ (p, n, t₀) ∈ c.sightings := by
  have hgrounded := (reaches_sound h).calls i
  rw [hanswer] at hgrounded
  obtain ⟨⟨p', n', t₀⟩, hs, hkey, hle, hlt⟩ := hgrounded
  obtain ⟨rfl, rfl⟩ := PrefixCode.append_sep_inj (hslash _ hs) hp hkey
  exact ⟨t₀, hle, hlt, hs⟩

theorem liveAnswer_fresh_checks : ∃ c : Checker, (Checker.initial 0).Reaches c ∧
    c.calls 1 = .answered ['p'] ['n'] .live 5 ∧ ∃ t₀ ≤ 5, 5 < t₀ + liveTTL ∧ (['p'], ['n'], t₀) ∈ c.sightings := by
  obtain ⟨c, hc, hlive, -, hslash⟩ := exists_checks
  exact ⟨c, hc, hlive, liveAnswer_fresh 0 c hc 1 ['p'] ['n'] 5 hlive (by decide) hslash⟩

theorem refusal_grounded (now : ℕ) (c : Checker) (h : (Checker.initial now).Reaches c) (i : ℕ) (p n : KeyText)
    (s : NamespaceState) (t : ℕ) (hanswer : c.calls i = .answered p n s t) (hrefused : refuseNamespace s = true) :
    (p, n) ∈ c.terminations ∨
      (p, n) ∈ c.absences ∧ ∃ t₀ ≤ t, t < t₀ + servingTTL ∧ (p, t₀) ∈ c.probes := by
  have hgrounded := (reaches_sound h).calls i
  rw [hanswer] at hgrounded
  cases s with
  | terminating => exact .inl hgrounded
  | missing =>
    obtain ⟨habsent, ⟨q, t₀⟩, hq, rfl, hle, hlt⟩ := hgrounded
    exact .inr ⟨habsent, t₀, hle, hlt, hq⟩
  | unknown | live => cases hrefused

theorem refusal_grounded_checks : ∃ c : Checker, (Checker.initial 0).Reaches c ∧
    c.calls 2 = .answered ['p'] ['m'] .missing 5 ∧ ((['p'], ['m']) ∈ c.terminations ∨
      (['p'], ['m']) ∈ c.absences ∧ ∃ t₀ ≤ 5, 5 < t₀ + servingTTL ∧ (['p'], t₀) ∈ c.probes) := by
  obtain ⟨c, hc, -, hmissing, -⟩ := exists_checks
  exact ⟨c, hc, hmissing, refusal_grounded 0 c hc 2 ['p'] ['m'] .missing 5 hmissing rfl⟩

end Ipam.Access
