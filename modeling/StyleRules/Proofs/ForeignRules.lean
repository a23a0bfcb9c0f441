import StyleRules.Proofs.Registration
import StyleRules.Rule.Specimens
import StyleRules.SyntaxTree.Comparison

namespace StyleRules

namespace Configuration

/-- Working through a list with one more element: what fails before it fails with it too; else it
is its turn, between the results of those before and those after. -/
theorem mapM_between {α β ε : Type} (f : α → Except ε β) (before after : List α) (x : α) :
    (∃ e, (before ++ after).mapM f = .error e ∧ (before ++ x :: after).mapM f = .error e) ∨
      ∃ bs, (before ++ after).mapM f = (after.mapM f).map (bs ++ ·) ∧
        (before ++ x :: after).mapM f =
          (f x).bind fun b => (after.mapM f).map fun as => bs ++ b :: as := by
  rw [List.mapM_append, List.mapM_append, List.mapM_cons]
  cases before.mapM f with
  | error e => exact .inl ⟨e, rfl, rfl⟩
  | ok bs =>
    refine .inr ⟨bs, ?_, ?_⟩
    · cases after.mapM f <;> rfl
    · cases f x with
      | error e => rfl
      | ok b => cases after.mapM f <;> rfl

variable {c : Configuration} {k : RuleKind} {extended : Registry} {d : Dialect}

theorem rules_with_registry (c : Configuration) (registry : Registry) :
    rules { c with registry } =
      (registry.sorted.filter fun k => c.isEnabled k.identifier).mapM c.ruleOf := rfl

/-- With one more kind the rules that run are built in the same order, and its own among them if it
is enabled. -/
theorem rules_register (new : c.registry.get? k.identifier = none)
    (registered : c.registry.register k = .ok extended) :
    ∃ before after, c.rules = (before ++ after).mapM c.ruleOf ∧
      rules { c with registry := extended } =
        (before ++ (if c.isEnabled k.identifier then [k] else []) ++ after).mapM c.ruleOf := by
  rw [Registry.register_of_new new] at registered
  cases Except.ok.inj registered
  obtain ⟨before, after, hsorted, hextended⟩ := sortBy_concat
    (fun a b : RuleKind => compare_ne_gt_total a.identifier b.identifier)
    (fun a b c : RuleKind => compare_ne_gt_trans a.identifier b.identifier c.identifier)
    c.registry.kinds k
  refine ⟨before.filter fun k => c.isEnabled k.identifier,
    after.filter fun k => c.isEnabled k.identifier, ?_, ?_⟩
  · rw [rules, Registry.sorted, hsorted, List.filter_append]
  · rw [rules_with_registry, Registry.sorted, hextended, List.filter_append, List.filter_cons]
    by_cases enabled : c.isEnabled k.identifier
    · rw [if_pos enabled, if_pos enabled, List.append_assoc, List.singleton_append]
    · rw [if_neg enabled, if_neg enabled, List.append_nil]

/-- Where the added kind keeps out of the way, the same rules run on the files of the dialect. -/
theorem rulesFor_register_of_harmless (new : c.registry.get? k.identifier = none)
    (registered : c.registry.register k = .ok extended)
    (harmless : c.isEnabled k.identifier = false ∨
      ∃ r, c.ruleOf k = .ok r ∧ r.kind.dialect.name ≠ d.name) :
    rulesFor { c with registry := extended } d = c.rulesFor d := by
  obtain ⟨before, after, hrules, hextended⟩ := rules_register new registered
  rw [rulesFor, rulesFor, hextended, hrules]
  by_cases enabled : c.isEnabled k.identifier
  · obtain ⟨r, hr, hforeign⟩ := harmless.resolve_left (by simp [enabled])
    rw [if_pos enabled, List.append_assoc, List.singleton_append]
    rcases mapM_between c.ruleOf before after k with ⟨e, hrest, hall⟩ | ⟨bs, hrest, hall⟩
    · rw [hrest, hall]
    · rw [hrest, hall, hr]
      cases after.mapM c.ruleOf with
      | error e => rfl
      | ok as => simp [Except.map, Except.bind, hforeign]
  · rw [if_neg enabled, List.append_nil]

/-- Where the rule of the added kind cannot be built, no rule runs on any file. -/
theorem rules_register_of_error (new : c.registry.get? k.identifier = none)
    (registered : c.registry.register k = .ok extended) (enabled : c.isEnabled k.identifier)
    {e : Fault} (unfit : c.ruleOf k = .error e) :
    ∃ e', (e' = e ∨ c.rules = .error e') ∧
      rules { c with registry := extended } = .error e' := by
  obtain ⟨before, after, hrules, hextended⟩ := rules_register new registered
  rw [if_pos enabled, List.append_assoc, List.singleton_append] at hextended
  rcases mapM_between c.ruleOf before after k with ⟨e', hrest, hall⟩ | ⟨bs, hrest, hall⟩
  · exact ⟨e', .inr (hrules.trans hrest), hextended.trans hall⟩
  · refine ⟨e, .inl rfl, ?_⟩
    rw [hextended, hall, unfit]
    rfl

/-- A rule of the file's own dialect that was configured under the identifier of the added kind
runs among the others from then on. -/
theorem rulesFor_register_of_own (new : c.registry.get? k.identifier = none)
    (registered : c.registry.register k = .ok extended) (enabled : c.isEnabled k.identifier)
    {r : Rule} (configured : c.ruleOf k = .ok r) (own : r.kind.dialect.name = d.name) :
    (∃ e, c.rulesFor d = .error e ∧ rulesFor { c with registry := extended } d = .error e) ∨
      ∃ before after, c.rulesFor d = .ok (before ++ after) ∧
        rulesFor { c with registry := extended } d = .ok (before ++ r :: after) := by
  obtain ⟨before, after, hrules, hextended⟩ := rules_register new registered
  rw [if_pos enabled, List.append_assoc, List.singleton_append] at hextended
  rw [rulesFor, rulesFor, hextended, hrules]
  rcases mapM_between c.ruleOf before after k with ⟨e, hrest, hall⟩ | ⟨bs, hrest, hall⟩
  · rw [hrest, hall]
    exact .inl ⟨e, rfl, rfl⟩
  · rw [hrest, hall, configured]
    cases after.mapM c.ruleOf with
    | error e => exact .inl ⟨e, rfl, rfl⟩
    | ok as =>
      right
      refine ⟨bs.filter fun r => r.kind.dialect.name = d.name,
        as.filter fun r => r.kind.dialect.name = d.name, ?_, ?_⟩
      · simp [Except.map]
      · simp [Except.map, Except.bind, own]

/-- The rule of a kind is one configured under its identifier, or one of the kind itself. -/
theorem ruleOf_eq_ok {r : Rule} (h : c.ruleOf k = .ok r) :
    r ∈ c.configured ∧ r.identifier = k.identifier ∨ r.kind = k := by
  rw [ruleOf] at h
  split at h
  next found hfound =>
    cases Except.ok.inj h
    exact .inl ⟨List.mem_reverse.mp (List.mem_of_find?_eq_some hfound),
      by simpa using List.find?_some hfound⟩
  next => exact .inr (RuleKind.kind_of_configure h)

/-- What cannot be built by default is refused by the kind itself. -/
theorem ruleOf_eq_error {e : Fault} (h : c.ruleOf k = .error e) :
    ∃ errors, e = .ruleRejected k.identifier k.typeName errors := by
  rw [ruleOf] at h
  split at h
  next => cases h
  next =>
    rw [RuleKind.configure] at h
    split at h
    next => cases h
    next errors _ => exact ⟨errors, (Except.error.inj h).symm⟩

/-- One more kind of another dialect leaves the outcome on a file alone if its rule can be built.
The rules of all enabled kinds are built before those of other dialects are dropped. -/
theorem foreign_kind_outcome [Parser] (new : c.registry.get? k.identifier = none)
    (registered : c.registry.register k = .ok extended)
    (foreign : k.dialect.name ≠ d.name) :
    let c' : Configuration := { c with registry := extended }
    ((c.isEnabled k.identifier = false ∨
          ∃ r, c.ruleOf k = .ok r ∧ r.kind.dialect.name ≠ d.name) →
        (∀ f cache, f.dialect = d → c'.diagnose f cache = c.diagnose f cache) ∧
          ∀ desk, desk.file.dialect = d → c'.correct desk = c.correct desk) ∧
      (∀ e, c.isEnabled k.identifier → c.ruleOf k = .error e →
        (∃ errors, e = .ruleRejected k.identifier k.typeName errors) ∧
          ∃ e', (e' = e ∨ c.rules = .error e') ∧
            (∀ f cache, c'.diagnose f cache = (.error e', cache)) ∧
            ∀ desk, c'.correct desk = (.error e', desk)) ∧
      ∀ r, c.isEnabled k.identifier → c.ruleOf k = .ok r → r.kind.dialect.name = d.name →
        (r ∈ c.configured ∧ r.identifier = k.identifier ∧ r.kind ≠ k) ∧
          ((∃ e, c.rulesFor d = .error e ∧ c'.rulesFor d = .error e) ∨
            ∃ before after, c.rulesFor d = .ok (before ++ after) ∧
              c'.rulesFor d = .ok (before ++ r :: after)) := by
  intro c'
  refine ⟨?_, ?_, ?_⟩
  · intro harmless
    have hrules : c'.rulesFor d = c.rulesFor d :=
      rulesFor_register_of_harmless new registered harmless
    constructor
    · rintro f cache rfl
      rw [diagnose, hrules, diagnose]
    · rintro desk rfl
      rw [correct, hrules, correct]
  · intro e enabled unfit
    obtain ⟨e', hcause, hrules⟩ := rules_register_of_error new registered enabled unfit
    have hall (d : Dialect) : c'.rulesFor d = .error e' := by
      rw [rulesFor, hrules]
      rfl
    refine ⟨ruleOf_eq_error unfit, e', hcause, ?_, ?_⟩
    · intro f cache
      rw [diagnose, hall]
    · intro desk
      rw [correct, hall]
  · intro r enabled configured own
    have hkind : r.kind ≠ k := by
      rintro rfl
      exact foreign own
    obtain ⟨hmem, hidentifier⟩ := (ruleOf_eq_ok configured).resolve_right hkind
    exact ⟨⟨hmem, hidentifier, hkind⟩,
      rulesFor_register_of_own new registered enabled configured own⟩

open scoped Comparison

/-- Of two kinds for Python, the one with a default leaves Swift files alone, and the one whose
option has to be given ends their correction. -/
theorem foreign_kind_outcome_swift :
    let c : Configuration := { registry := { kinds := [.weakDelegate] } }
    let mild : Configuration :=
      { c with registry := { kinds := [.weakDelegate, Specimen.threshold] } }
    let unfit : Configuration :=
      { c with registry := { kinds := [.weakDelegate, Specimen.requiredLimit] } }
    (∀ f cache, f.dialect = .swift → mild.diagnose f cache = c.diagnose f cache) ∧
      ∀ desk, ∃ errors, unfit.correct desk =
        (.error (.ruleRejected "required_limit".toList "RequiredLimitRule".toList errors), desk) := by
  intro c mild unfit
  obtain ⟨hmild, -, -⟩ := foreign_kind_outcome (c := c) (k := Specimen.threshold) (d := .swift)
    rfl rfl (by decide)
  obtain ⟨-, hunfit, -⟩ := foreign_kind_outcome (c := c) (k := Specimen.requiredLimit)
    (d := .swift) rfl rfl (by decide)
  refine ⟨(hmild (.inr ⟨_, rfl, by decide⟩)).1, ?_⟩
  obtain ⟨⟨errors, herrors⟩, e', hcause, -, hcorrect⟩ := hunfit _ rfl rfl
  have he' := (hcause.resolve_right (by rintro ⟨⟩)).trans herrors
  intro desk
  exact ⟨errors, (hcorrect desk).trans (by rw [he']; rfl)⟩

/-- A kind for Python whose option has to be given keeps the delegate of a Swift file from being
reported. -/
theorem foreign_kind_hides_violation :
    let c : Configuration := { registry := { kinds := [.weakDelegate] } }
    let extended : Registry := { kinds := [.weakDelegate, Specimen.requiredLimit] }
    let file : SourceFile :=
      { contents := "class A \x7b\n  var delegate: D?\n\x7d\n".toList, dialect := .swift }
    c.registry.get? Specimen.requiredLimit.identifier = none ∧
      c.registry.register Specimen.requiredLimit = .ok extended ∧
      Specimen.requiredLimit.dialect.name ≠ file.dialect.name ∧
      ((c.diagnose file {}).1.toOption.map fun found => found.map (·.location)) =
        some [.point none 2 3] ∧
      (diagnose { c with registry := extended } file {}).1 =
        .error (.ruleRejected "required_limit".toList "RequiredLimitRule".toList
          [⟨["limit".toList], .missing⟩]) := by
  exact ⟨rfl, rfl, by decide, rfl, rfl⟩

end Configuration

end StyleRules
