/-
# Cookies and the sites that set them

A cookie belongs to the host that set it or, with a `Domain` attribute, to the hosts under a domain
that the setter is under too. The jar sends each cookie to all hosts under the domain it is filed
under. It takes that domain from the attribute unchecked, and from the setter where there is no
attribute. So cookies stay with their sites exactly if every cookie that is alive when it comes has
an attribute for a domain of its setter, and no store under a foreign domain meets a live cookie.
-/

import Mathlib
import SmartOs.CS.Run
import SmartOs.Net.Cookies

open List Option
open SmartOs.CS (Run Guarded)

namespace SmartOs.Net.Cookies

variable {e : Entry} {jar : Jar}

/-! ## Domains -/

/-- The host is the domain or one under it: the domain is a suffix at a label boundary. -/
def DomainMatches (domain host : Str) : Prop :=
  host = domain ∨ ∃ front, host = front ++ '.' :: domain

instance (domain host : Str) : Decidable (DomainMatches domain host) :=
  decidable_of_iff (host = domain ∨ '.' :: domain <:+ host) <| by
    simp only [DomainMatches, List.IsSuffix, eq_comm]

theorem matchDomain_iff (c : Cookie) (host : Str) :
    c.matchDomain host ↔ toAsciiLowercase c.domain = [] ∨
      DomainMatches (toAsciiLowercase c.domain) (toAsciiLowercase host) := by
  simp only [Cookie.matchDomain, DomainMatches]
  generalize toAsciiLowercase c.domain = d
  generalize toAsciiLowercase host = h
  by_cases empty : d = []
  · simp [empty]
  by_cases same : h = d
  · simp [same]
  rw [if_neg empty, if_neg same]
  have before (front : Str) (c : Char) :
      (front ++ c :: d).length - d.length = front.length + 1 := by
    simp only [length_append, length_cons]
    omega
  constructor
  · intro found
    split at found
    · rename_i suffix
      obtain ⟨front, rfl⟩ := suffix
      rcases eq_nil_or_concat' front with rfl | ⟨front, c, rfl⟩
      · exact absurd rfl same
      -- The character before the domain is the last one of the front.
      rw [append_assoc, singleton_append, before] at found
      obtain rfl : c = '.' := by simpa using found
      exact .inr (.inr ⟨front, by simp⟩)
    · exact absurd found (by decide)
  · rintro (rfl | rfl | ⟨front, rfl⟩)
    · exact absurd rfl empty
    · exact absurd rfl same
    have suffix : d <:+ front ++ '.' :: d := ⟨front ++ ['.'], by simp⟩
    rw [if_pos suffix, before]
    simp

@[simp] theorem toAsciiLowercase_idem (s : Str) :
    toAsciiLowercase (toAsciiLowercase s) = toAsciiLowercase s := by
  simp [toAsciiLowercase]

/-! ## The domain a cookie is filed under -/

theorem domain_applyAttribute (now : ℕ) (c : Cookie) (attr : Str × Str) :
    (applyAttribute now c attr).domain = (attrDomain attr).getD c.domain := by
  obtain ⟨k, v⟩ := attr
  simp only [applyAttribute, attrDomain]
  by_cases domain : k = "domain".toList
  · simp only [if_pos domain]
    cases namedDomain v <;> rfl
  simp only [if_neg domain]
  split_ifs <;> try rfl
  split
  · split <;> rfl
  · rfl

theorem domain_foldl_applyAttribute (now : ℕ) (c : Cookie) (attrs : List (Str × Str)) :
    (attrs.foldl (applyAttribute now) c).domain =
      (attrs.filterMap attrDomain).getLast?.getD c.domain := by
  induction attrs generalizing c with
  | nil => rfl
  | cons attr attrs ih =>
    rw [foldl_cons, ih, domain_applyAttribute, filterMap_cons]
    cases attrDomain attr with
    | none => rfl
    | some d => simp [getLast?_cons]

theorem parsedEntry_eq_some {now : ℕ} {raw host reqPath : Str}
    (parsed : parsedEntry now raw host reqPath = some e) :
    e.setter = host ∧ e.domainAttr = domainAttribute raw ∧
      e.cookie.domain = e.domainAttr.getD (toAsciiLowercase host) := by
  simp only [parsedEntry, map_eq_some_iff] at parsed
  obtain ⟨c, parsed, rfl⟩ := parsed
  refine ⟨rfl, rfl, ?_⟩
  simp only [parseSetCookie] at parsed
  split at parsed
  · cases parsed
  split at parsed
  · cases parsed
  split at parsed
  · cases parsed
  cases parsed
  exact domain_foldl_applyAttribute ..

theorem domainAttribute_eq_some {raw d : Str} (named : domainAttribute raw = some d) :
    d ≠ [] ∧ toAsciiLowercase d = d := by
  obtain ⟨attr, -, found⟩ := mem_filterMap.mp (mem_of_getLast? named)
  simp only [attrDomain, namedDomain] at found
  split_ifs at found with _ nonempty
  cases found
  exact ⟨nonempty, toAsciiLowercase_idem _⟩

/-! ## Cookies of a site -/

/-- The hosts that a cookie is for: its setter, or the hosts under the domain of its attribute if
the setter is one of them. -/
def Entry.For (e : Entry) (host : Str) : Prop :=
  match e.domainAttr with
  | none => toAsciiLowercase e.setter = toAsciiLowercase host
  | some d => DomainMatches d (toAsciiLowercase e.setter) ∧ DomainMatches d (toAsciiLowercase host)

/-- The cookies of every request are for its host. -/
def Jar.Confined (jar : Jar) : Prop :=
  ∀ host path scheme, ∀ e ∈ jar.sent host path scheme, e.For host

/-- A store only replaces cookies that the host could receive itself. -/
def Jar.Respects (jar : Jar) : Event → Prop
  | .store raw host reqPath => ∀ e, parsedEntry jar.now raw host reqPath = some e →
      ∀ f ∈ jar.retained, f.cookie.key = e.cookie.key → f.cookie.matchDomain host
  | _ => True

/-- A cookie that is stored is expired or has an attribute for a domain of its setter. If it has
one for another domain, no live cookie is stored under its key. -/
def Jar.Good (jar : Jar) : Event → Prop
  | .store raw host reqPath => ∀ e, parsedEntry jar.now raw host reqPath = some e →
      (e.cookie.isExpired jar.now = false →
        ∃ d, domainAttribute raw = some d ∧ DomainMatches d (toAsciiLowercase host)) ∧
      ∀ d, domainAttribute raw = some d → ¬ DomainMatches d (toAsciiLowercase host) →
        ∀ f ∈ jar.retained, f.cookie.key ≠ e.cookie.key
  | _ => True

theorem Jar.mem_retained :
    e ∈ jar.retained ↔ e ∈ jar.entries ∧ e.cookie.isExpired jar.now = false := by
  simp [Jar.retained]

theorem Jar.mem_sent {host path scheme : Str} : e ∈ jar.sent host path scheme ↔ e ∈ jar.retained ∧
      (e.cookie.secure → scheme = "https".toList) ∧ e.cookie.matchDomain host ∧
        e.cookie.matchPath path := by
  cases secure : e.cookie.secure <;> simp [Jar.sent, secure, and_assoc]

theorem Jar.confined_iff : jar.Confined ↔
      ∀ e ∈ jar.retained, ∀ host, e.cookie.matchDomain host → e.For host := by
  constructor
  · intro confined e retained host receives
    -- The cookie's own path over https is a request that no other condition stops.
    have own : e.cookie.matchPath e.cookie.path := by simp [Cookie.matchPath]
    exact confined host _ _ e (mem_sent.mpr ⟨retained, fun _ => rfl, receives, own⟩)
  · intro all host path scheme e sent
    obtain ⟨retained, -, receives, -⟩ := mem_sent.mp sent
    exact all e retained host receives

theorem mem_insertEntry_self (e : Entry) (entries : List Entry) : e ∈ insertEntry e entries := by
  induction entries with
  | nil => exact mem_singleton_self e
  | cons f entries ih =>
    simp only [insertEntry]
    split_ifs <;> simp [ih]

theorem mem_insertEntry {f : Entry} {entries : List Entry} (here : f ∈ insertEntry e entries) :
    f = e ∨ f ∈ entries := by
  induction entries with
  | nil => exact .inl (mem_singleton.mp here)
  | cons g entries ih =>
    simp only [insertEntry] at here
    split_ifs at here <;> grind

/-! ## One step -/

variable {jar : Jar} {raw host reqPath : Str} {e : Entry}

section

variable (parsed : parsedEntry jar.now raw host reqPath = some e)
include parsed

theorem step_store :
    jar.step (.store raw host reqPath) = { jar with entries := insertEntry e jar.entries } := by
  simp [Jar.step, parsed]

/-- A cookie with an attribute for a domain of its setter is for all hosts that receive it. -/
theorem for_of_matches {d : Str} (named : domainAttribute raw = some d)
    (own : DomainMatches d (toAsciiLowercase host)) {receiver : Str}
    (receives : e.cookie.matchDomain receiver) : e.For receiver := by
  obtain ⟨rfl, attr, domain⟩ := parsedEntry_eq_some parsed
  obtain ⟨nonempty, lower⟩ := domainAttribute_eq_some named
  rw [attr, named, getD_some] at domain
  rw [matchDomain_iff, domain, lower] at receives
  simp only [Entry.For, attr, named]
  exact ⟨own, receives.resolve_left nonempty⟩

theorem not_for_of_not_matches
    (foreign : ¬ ∃ d, domainAttribute raw = some d ∧ DomainMatches d (toAsciiLowercase host)) :
    ∃ receiver, e.cookie.matchDomain receiver ∧ ¬ e.For receiver := by
  obtain ⟨rfl, attr, domain⟩ := parsedEntry_eq_some parsed
  cases named : domainAttribute raw with
  | none =>
    -- A host under the setter.
    rw [attr, named, getD_none] at domain
    refine ⟨"x.".toList ++ e.setter, ?_, ?_⟩
    · rw [matchDomain_iff, domain, toAsciiLowercase_idem]
      exact .inr (.inr ⟨['x'], rfl⟩)
    simp only [Entry.For, attr, named]
    intro same
    have length := congrArg length same
    simp [toAsciiLowercase] at length
    omega
  | some d =>
    -- The domain itself.
    rw [attr, named] at domain
    refine ⟨d, ?_, ?_⟩
    · rw [matchDomain_iff, domain]
      exact .inr (.inl rfl)
    · simp only [Entry.For, attr, named]
      exact fun both => foreign ⟨d, named, both.1⟩

/-- A host receives what is filed under its domains: its own cookies and those of the attribute. -/
theorem matchDomain_setter_iff : e.cookie.matchDomain host ↔
      ∀ d, domainAttribute raw = some d → DomainMatches d (toAsciiLowercase host) := by
  obtain ⟨rfl, attr, domain⟩ := parsedEntry_eq_some parsed
  rw [matchDomain_iff, domain, attr]
  cases named : domainAttribute raw with
  | none =>
    simp only [getD_none, toAsciiLowercase_idem, reduceCtorEq, false_imp_iff, implies_true,
      iff_true]
    exact .inr (.inl rfl)
  | some d =>
    obtain ⟨nonempty, lower⟩ := domainAttribute_eq_some named
    simp [lower, nonempty]

end

theorem matchDomain_eq_of_key_eq {c c' : Cookie} (same : c.key = c'.key) :
    c.matchDomain host = c'.matchDomain host := by
  have domain : c.domain = c'.domain := congrArg Key.domain same
  simp only [Cookie.matchDomain, domain]

theorem confined_store_iff (confined : jar.Confined)
    (parsed : parsedEntry jar.now raw host reqPath = some e) :
    (jar.step (.store raw host reqPath)).Confined ↔ (e.cookie.isExpired jar.now = false →
        ∃ d, domainAttribute raw = some d ∧ DomainMatches d (toAsciiLowercase host)) := by
  rw [Jar.confined_iff] at confined ⊢
  rw [step_store parsed]
  constructor
  · intro after alive
    by_contra foreign
    obtain ⟨receiver, receives, notFor⟩ := not_for_of_not_matches parsed foreign
    refine notFor (after e (Jar.mem_retained.mpr ⟨?_, alive⟩) receiver receives)
    exact mem_insertEntry_self e jar.entries
  · intro own f retained receiver receives
    obtain ⟨stored, alive⟩ := Jar.mem_retained.mp retained
    rcases mem_insertEntry stored with rfl | old
    · obtain ⟨d, named, ofSetter⟩ := own alive
      exact for_of_matches parsed named ofSetter receives
    · exact confined f (Jar.mem_retained.mpr ⟨old, alive⟩) receiver receives

theorem respects_store_iff (parsed : parsedEntry jar.now raw host reqPath = some e) :
    jar.Respects (.store raw host reqPath) ↔
      ∀ d, domainAttribute raw = some d → ¬ DomainMatches d (toAsciiLowercase host) →
        ∀ f ∈ jar.retained, f.cookie.key ≠ e.cookie.key := by
  have unfolded : jar.Respects (.store raw host reqPath) ↔
      ∀ f ∈ jar.retained, f.cookie.key = e.cookie.key → e.cookie.matchDomain host := by
    simp only [Jar.Respects, parsed, some.injEq, forall_eq']
    refine forall₃_congr fun f _ same => ?_
    rw [matchDomain_eq_of_key_eq same]
  rw [unfolded, matchDomain_setter_iff parsed]
  constructor
  · intro own d named foreign f retained same
    exact foreign (own f retained same d named)
  · intro apart f retained same d named
    by_contra foreign
    exact apart d named foreign f retained same

/-- A step that loses entries or lets time pass keeps the jar confined. -/
theorem confined_of_retained_subset {jar' : Jar} (confined : jar.Confined)
    (kept : ∀ e ∈ jar'.retained, e ∈ jar.retained) : jar'.Confined := by
  rw [Jar.confined_iff] at confined ⊢
  exact fun e retained => confined e (kept e retained)

theorem isExpired_mono {c : Cookie} {now later : ℕ} (le : now ≤ later)
    (alive : c.isExpired later = false) : c.isExpired now = false := by
  simp only [Cookie.isExpired] at alive ⊢
  split at alive
  · simp only [decide_eq_false_iff_not] at alive ⊢
    omega
  · rfl

/-- From a confined jar, a step keeps it confined and replaces no foreign cookie exactly if it is a
good one. -/
theorem confined_step_iff (confined : jar.Confined) (event : Event) :
    (jar.step event).Confined ∧ jar.Respects event ↔ jar.Good event := by
  cases event with
  | store raw host reqPath =>
    cases parsed : parsedEntry jar.now raw host reqPath with
    | none => simp [Jar.step, Jar.Respects, Jar.Good, parsed, confined]
    | some e =>
      rw [confined_store_iff confined parsed, respects_store_iff parsed]
      simp [Jar.Good, parsed, some.injEq, forall_eq']
  | headerFor host path scheme =>
    refine iff_of_true ⟨confined_of_retained_subset confined ?_, trivial⟩ trivial
    intro e retained
    obtain ⟨retained, -⟩ := Jar.mem_retained.mp retained
    exact retained
  | clear =>
    refine iff_of_true ⟨confined_of_retained_subset confined ?_, trivial⟩ trivial
    intro e retained
    obtain ⟨stored, -⟩ := Jar.mem_retained.mp retained
    cases stored
  | elapse secs =>
    refine iff_of_true ⟨confined_of_retained_subset confined ?_, trivial⟩ trivial
    intro e retained
    obtain ⟨stored, alive⟩ := Jar.mem_retained.mp retained
    exact Jar.mem_retained.mpr ⟨stored, isExpired_mono (Nat.le_add_right jar.now secs) alive⟩

/-! ## Histories -/

theorem confined_empty : Jar.empty.Confined := by
  rintro host path scheme e sent
  cases sent

/-- In a history from the empty jar, after every step each request only gets cookies that are for
its host, and no store replaces a live cookie its host could not receive, exactly if all stores are
good ones. -/
theorem confined_iff_good (events : List Event) : (∀ front event, front ++ [event] <+: events →
      (Jar.empty.run (front ++ [event])).Confined ∧ (Jar.empty.run front).Respects event) ↔
      Run (Guarded Jar.Good fun jar event next => jar.step event = next) Jar.empty events
        (Jar.empty.run events) := by
  have histories := @Run.foldl_guarded_iff Jar Event Jar.empty events Jar.Confined Jar.Good Jar.step
    (fun jar event => (jar.step event).Confined ∧ jar.Respects event)
    (fun confined => confined_step_iff confined _)
    (fun confined good => ((confined_step_iff confined _).mpr good).1) confined_empty
  simpa [Jar.run] using histories

/-- A script of one site sets a cookie for another site. -/
theorem not_confined_setFromJs : ¬ ∀ events : List Event, (Jar.empty.run events).Confined := by
  intro all
  have confined := all (setFromJs "a=1; Domain=bank.com".toList "evil.com".toList)
  have sent := confined "bank.com".toList ['/'] "https".toList
    ⟨⟨['a'], ['1'], "bank.com".toList, ['/'], none, false, false⟩, "evil.com".toList,
      some "bank.com".toList⟩ (by decide +kernel)
  exact absurd sent.1 (by decide +kernel)

end SmartOs.Net.Cookies
