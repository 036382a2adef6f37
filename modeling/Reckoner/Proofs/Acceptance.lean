import Mathlib.Data.List.Nodup
import Mathlib.Order.Bounds.Defs
import Reckoner.Suite.Load

/-!
# Reckoner.Proofs.Acceptance — which suites are accepted

The cases of a suite are looked at in order, each with the names of those in front of it, and the
first objection ends it all. `Flaw` says what can be wrong with a case, in the order in which it is
looked for (`objection?_eq`). So there is no objection just if every case is well formed and no two
names are equal, however far apart they stand (`firstObjection?_eq_none_iff`). Otherwise the
objection is about the first case that cannot stand behind those in front of it
(`exists_tellsFlaw`). All this is about the suite that a text is decoded as, whatever the decoder is.

Main statement: `parse_exact`.
-/

namespace Reckoner

theorem DiagnosticKind.known_iff {k : DiagnosticKind} : k.known = true ↔ k ∈ all := by
  cases k <;> simp [known, all]

/-- The case is complete in itself: it has a name, and it expects something that can be. -/
structure Case.WellFormed (c : Case) : Prop where
  named : c.name ≠ []
  expects : c.value.isSome ∨ c.tree.isSome ∨ c.fault.isSome
  consistent : ¬(c.value.isSome ∧ c.fault.isSome)
  known : ∀ e ∈ c.fault, e.kind ∈ DiagnosticKind.all

/-- What may be wrong with a case. -/
inductive Flaw where
  | nameless
  /-- The name is taken. -/
  | repeated
  /-- Nothing is expected. -/
  | idle
  /-- Both a value and a fault are expected. -/
  | torn
  | unknownKind

namespace Flaw

/-- The flaws in the order in which they are looked for. -/
def all : List Flaw := [nameless, repeated, idle, torn, unknownKind]

theorem mem_all (flaw : Flaw) : flaw ∈ all := by
  cases flaw <;> simp [all]

/-- Does a case have this flaw behind cases with these names? -/
@[simp]
def In (names : List Bytes) (c : Case) : Flaw → Prop
  | nameless => c.name = []
  | repeated => c.name ∈ names
  | idle => ¬(c.value.isSome ∨ c.tree.isSome ∨ c.fault.isSome)
  | torn => c.value.isSome ∧ c.fault.isSome
  | unknownKind => ∃ e ∈ c.fault, e.kind ∉ DiagnosticKind.all

instance (names : List Bytes) (c : Case) : DecidablePred (In names c)
  | nameless => inferInstanceAs (Decidable (c.name = []))
  | repeated => inferInstanceAs (Decidable (c.name ∈ names))
  | idle => inferInstanceAs (Decidable (¬(c.value.isSome ∨ c.tree.isSome ∨ c.fault.isSome)))
  | torn => inferInstanceAs (Decidable (c.value.isSome ∧ c.fault.isSome))
  | unknownKind => inferInstanceAs (Decidable (∃ e ∈ c.fault, e.kind ∉ DiagnosticKind.all))

/-- What is said of a case that has a name. -/
def about (c : Case) (problem : Bytes) : Bytes :=
  utf8 "case " ++ Text.quote c.name ++ utf8 ": " ++ problem

/-- What is said of the case with this index; one without a name is called by the index. -/
@[simp]
def complaint (index : Nat) (c : Case) : Flaw → Bytes
  | nameless => utf8 "case " ++ Number.decimal index ++ utf8 ": missing name"
  | repeated => about c (utf8 "duplicate name")
  | idle => about c (utf8 "expects nothing")
  | torn => about c (utf8 "cannot expect both a value and an error")
  | unknownKind =>
    about c (utf8 "unknown error kind " ++ Text.quote (c.fault.elim [] fun e => e.kind.name))

end Flaw

namespace Suite

/-! ## One case -/

/-- The objection against a case is its first flaw. -/
theorem objection?_eq (names : List Bytes) (index : Nat) (c : Case) :
    objection? names index c
      = (Flaw.all.find? fun flaw => flaw.In names c).map (Flaw.complaint index c) := by
  obtain ⟨name, source, value, tree, fault⟩ := c
  unfold objection? Flaw.all
  by_cases hname : name = []
  · simp [hname]
  by_cases hnew : name ∈ names
  · simp [hname, hnew, Flaw.about]
  cases fault with
  | none => cases value <;> cases tree <;> simp [hname, hnew, Flaw.about]
  | some e =>
    cases value with
    | some v => simp [hname, hnew, Flaw.about]
    | none =>
      by_cases hkind : e.kind.known = true <;>
        simp [hname, hnew, hkind, ← DiagnosticKind.known_iff, Flaw.about]

/-- A case without flaws is well formed and has a name of its own. -/
theorem objection?_eq_none_iff {names : List Bytes} {index : Nat} {c : Case} :
    objection? names index c = none ↔ c.WellFormed ∧ c.name ∉ names := by
  rw [objection?_eq, Option.map_eq_none_iff, List.find?_eq_none]
  simp only [decide_eq_true_iff]
  constructor
  · intro hflawless
    have hnot : ∀ flaw : Flaw, ¬flaw.In names c := fun flaw => hflawless flaw flaw.mem_all
    have hunknown : ¬∃ e ∈ c.fault, e.kind ∉ DiagnosticKind.all := hnot .unknownKind
    exact ⟨⟨hnot .nameless, not_not.1 (hnot .idle), hnot .torn, by simpa using hunknown⟩,
      hnot .repeated⟩
  · rintro ⟨hc, hnew⟩ flaw -
    cases flaw with
    | nameless => exact hc.named
    | repeated => exact hnew
    | idle => exact not_not.2 hc.expects
    | torn => exact hc.consistent
    | unknownKind => simpa using hc.known

theorem objection?_reverse (names : List Bytes) (index : Nat) (c : Case) :
    objection? names.reverse index c = objection? names index c := by
  simp only [objection?, List.contains_reverse]

/-! ## All cases -/

/-- The cases may stand together: each one is well formed, and no two have the same name. -/
structure Sound (cases : List Case) : Prop where
  wellFormed : ∀ c ∈ cases, c.WellFormed
  distinct : (cases.map Case.name).Nodup

theorem Sound.sublist {cases cases' : List Case} (h : Sound cases) (hsub : cases'.Sublist cases) :
    Sound cases' :=
  ⟨fun c hc => h.wellFormed c (hsub.subset hc), h.distinct.sublist (hsub.map Case.name)⟩

theorem Sound.last {front : List Case} {c : Case} (h : Sound (front ++ [c])) :
    c.WellFormed ∧ c.name ∉ front.map Case.name := by
  refine ⟨h.wellFormed c (by simp), fun hmem => ?_⟩
  have hdistinct := h.distinct
  rw [List.map_append, List.nodup_append] at hdistinct
  exact hdistinct.2.2 c.name hmem c.name (by simp) rfl

theorem sound_cons_iff {c : Case} {rest : List Case} :
    Sound (c :: rest) ↔ c.WellFormed ∧ Sound rest ∧ ∀ c' ∈ rest, c'.name ≠ c.name := by
  constructor
  · rintro ⟨hwell, hdistinct⟩
    rw [List.forall_mem_cons] at hwell
    rw [List.map_cons, List.nodup_cons] at hdistinct
    refine ⟨hwell.1, ⟨hwell.2, hdistinct.2⟩, fun c' hc' heq => hdistinct.1 ?_⟩
    exact heq ▸ List.mem_map_of_mem hc'
  · rintro ⟨hc, ⟨hwell, hdistinct⟩, hnew⟩
    refine ⟨List.forall_mem_cons.2 ⟨hc, hwell⟩, List.nodup_cons.2 ⟨?_, hdistinct⟩⟩
    simpa using hnew

/-- **There is no objection just if the cases may stand together** and none of their names is one of
those in front. -/
theorem firstObjection?_eq_none_iff {names : List Bytes} {index : Nat} {cases : List Case} :
    firstObjection? names index cases = none ↔ Sound cases ∧ ∀ c ∈ cases, c.name ∉ names := by
  induction cases generalizing names index with
  | nil => exact ⟨fun _ => ⟨⟨by simp, .nil⟩, by simp⟩, fun _ => rfl⟩
  | cons c rest ih =>
    rw [firstObjection?, sound_cons_iff, List.forall_mem_cons]
    cases hc : objection? names index c with
    | some problem =>
      -- either the case is not well formed or its name is one of those in front
      have hflawed := mt objection?_eq_none_iff.2 (hc ▸ Option.some_ne_none problem)
      simp
      grind
    | none =>
      obtain ⟨hwell, hnew⟩ := objection?_eq_none_iff.1 hc
      simp only [ih, List.mem_cons, not_or]
      grind

/-- **The objection is about the first case that cannot stand behind those in front of it.** -/
theorem exists_objection_of_firstObjection? {names : List Bytes} {index : Nat} {cases : List Case}
    {problem : Bytes} (h : firstObjection? names index cases = some problem) :
    ∃ i c, cases[i]? = some c ∧ firstObjection? names index (cases.take i) = none ∧
      objection? (((cases.take i).map Case.name).reverse ++ names) (index + i) c
        = some problem := by
  induction cases generalizing names index with
  | nil => cases h
  | cons c rest ih =>
    rw [firstObjection?] at h
    cases hc : objection? names index c with
    | some problem' =>
      rw [hc] at h
      cases h
      exact ⟨0, c, rfl, rfl, hc⟩
    | none =>
      rw [hc] at h
      obtain ⟨i, c', hget, hfront, hproblem⟩ := ih h
      refine ⟨i + 1, c', hget, ?_, ?_⟩
      · simpa only [List.take_succ_cons, firstObjection?, hc] using hfront
      · simpa [Nat.add_assoc, Nat.add_comm 1] using hproblem

/-- `TellsFlaw cases problem`: at the first case that cannot stand behind those in front of it,
`problem` is said of the first flaw that it has there. -/
def TellsFlaw (cases : List Case) (problem : Bytes) : Prop :=
  ∃ i c flaw, IsLeast {i | ¬Sound (cases.take (i + 1))} i ∧ cases[i]? = some c ∧
    Flaw.all.find? (fun flaw => flaw.In ((cases.take i).map Case.name) c) = some flaw ∧
    problem = flaw.complaint i c

/-- **Cases that may not stand together have an objection**, which is about the case where this
first fails. -/
theorem exists_tellsFlaw {cases : List Case} (h : ¬Sound cases) :
    ∃ problem, firstObjection? [] 0 cases = some problem ∧ TellsFlaw cases problem := by
  obtain ⟨problem, hproblem⟩ : ∃ problem, firstObjection? [] 0 cases = some problem := by
    refine Option.ne_none_iff_exists'.1 fun hnone => h ?_
    exact (firstObjection?_eq_none_iff.1 hnone).1
  obtain ⟨i, c, hget, hfront, hobjection⟩ := exists_objection_of_firstObjection? hproblem
  rw [List.append_nil, Nat.zero_add, objection?_reverse] at hobjection
  have hsound : Sound (cases.take i) := (firstObjection?_eq_none_iff.1 hfront).1
  have hunsound : ¬Sound (cases.take (i + 1)) := by
    rw [List.take_add_one, hget, Option.toList_some]
    intro htogether
    rw [objection?_eq_none_iff.2 htogether.last] at hobjection
    cases hobjection
  rw [objection?_eq, Option.map_eq_some_iff] at hobjection
  obtain ⟨flaw, hflaw, rfl⟩ := hobjection
  -- in front of `i` all is sound, and what is sound stays so when cases are left out
  refine ⟨_, hproblem, i, c, flaw, ⟨hunsound, fun j hj => ?_⟩, hget, hflaw, rfl⟩
  by_contra hlt
  exact hj (hsound.sublist (List.take_sublist_take_left (by omega)))

/-! ## Suites -/

/-- An accepted suite is the one that was written. -/
theorem validate_eq_ok_iff {s s' : Suite} :
    s.validate = .ok s' ↔ s = s' ∧ s.cases ≠ [] ∧ Sound s.cases := by
  unfold validate
  cases hcases : s.cases with
  | nil => simp
  | cons c rest =>
    cases hfirst : firstObjection? [] 0 (c :: rest) with
    | none =>
      have hsound : Sound (c :: rest) := (firstObjection?_eq_none_iff.1 hfirst).1
      simp [hsound]
    | some problem =>
      have hunsound : ¬Sound (c :: rest) := by
        intro hsound
        rw [firstObjection?_eq_none_iff.2 ⟨hsound, by simp⟩] at hfirst
        cases hfirst
      simp [hunsound]

section
variable (decode : Decoder)

theorem parse_eq_ok_iff {text : Bytes} {s : Suite} :
    parse decode text = .ok s ↔
      text.length ≤ maxSize ∧ ∃ s', decode text = .ok s' ∧ s'.validate = .ok s := by
  unfold parse
  split
  · next hlarge => simp [Nat.not_le.2 hlarge]
  · next hsmall =>
    cases hdecode : decode text with
    | error problem => simp
    | ok s' => simp [Nat.not_lt.1 hsmall]

/-- **A suite is accepted just if it is well formed**, however texts are decoded. It must not be too
large, it must be a suite with cases at all, each case must be well formed, and no two may have the
same name; the suite is then the one that was written. Where the cases are at fault, the fault is
about the case with the least index `i` such that the cases up to `i` may not stand together. It
tells the first flaw that this case has behind those in front of it. -/
theorem parse_exact (text : Bytes) :
    (∀ s, parse decode text = .ok s ↔
      text.length ≤ maxSize ∧ decode text = .ok s ∧ s.cases ≠ [] ∧ Sound s.cases) ∧
    ∀ s, text.length ≤ maxSize → decode text = .ok s → s.cases ≠ [] → ¬Sound s.cases →
      ∃ problem, parse decode text = .error (.plain problem) ∧ TellsFlaw s.cases problem := by
  refine ⟨fun s => ?_, fun s hsize hdecode hne hunsound => ?_⟩
  · simp only [parse_eq_ok_iff, validate_eq_ok_iff]
    constructor
    · rintro ⟨hsize, s', hdecode, rfl, hne, hsound⟩
      exact ⟨hsize, hdecode, hne, hsound⟩
    · rintro ⟨hsize, hdecode, hne, hsound⟩
      exact ⟨hsize, s, hdecode, rfl, hne, hsound⟩
  · obtain ⟨problem, hobjection, htells⟩ := exists_tellsFlaw hunsound
    refine ⟨problem, ?_, htells⟩
    rw [parse, if_neg (Nat.not_lt.2 hsize), hdecode]
    simp only [validate, List.isEmpty_iff, hne, hobjection, if_false]

end

/-- A suite is accepted. It no longer is when a case is added that takes the name of the first,
expects both a value and a fault, and has an unknown kind. -/
theorem parse_exact_repeated :
    let text := utf8 "cases:\n- name: a\n  tree: nil\n- name: b\n  value: nil\n"
    let more := text ++ utf8 "- name: a\n  value: nil\n  error:\n    kind: Oops\n"
    (∃ s, parse ofYaml text = .ok s ∧ Sound s.cases) ∧
    ∃ s, ofYaml more = .ok s ∧ ¬Sound s.cases ∧
      TellsFlaw s.cases (utf8 "case \"a\": duplicate name") := by
  intro text more
  have haccepted : (parse ofYaml text).toBool = true := by decide +kernel
  have hnames : (ofYaml more).toOption.map (fun s => s.cases.map Case.name)
      = some [utf8 "a", utf8 "b", utf8 "a"] := by decide +kernel
  have hmessage : ((parse ofYaml more).mapError Fault.message).map Suite.name
      = .error (utf8 "case \"a\": duplicate name") := by decide +kernel
  constructor
  · cases hparse : parse ofYaml text with
    | error f =>
      rw [hparse] at haccepted
      cases haccepted
    | ok s => exact ⟨s, rfl, (((parse_exact ofYaml text).1 s).1 hparse).2.2.2⟩
  · cases hdecode : ofYaml more with
    | error problem =>
      rw [hdecode] at hnames
      cases hnames
    | ok s =>
      rw [hdecode] at hnames
      have hcases : s.cases.map Case.name = [utf8 "a", utf8 "b", utf8 "a"] := Option.some.inj hnames
      have hne : s.cases ≠ [] := by
        rintro hnil
        rw [hnil] at hcases
        cases hcases
      have hunsound : ¬Sound s.cases := by
        intro hsound
        have hdistinct := hsound.distinct
        rw [hcases] at hdistinct
        revert hdistinct
        decide
      obtain ⟨problem, herror, htells⟩ :=
        (parse_exact ofYaml more).2 s (by decide) hdecode hne hunsound
      have hproblem : problem = utf8 "case \"a\": duplicate name" := by
        rw [herror] at hmessage
        simpa [Except.mapError, Except.map, Fault.message] using hmessage
      exact ⟨s, rfl, hunsound, hproblem ▸ htells⟩

end Suite

end Reckoner
