import StyleRules.Configuration.Linting
import StyleRules.Proofs.Sorting

namespace StyleRules

namespace Registry

def Distinct (r : Registry) : Prop := (r.kinds.map (·.identifier)).Nodup

theorem distinct_empty : ({} : Registry).Distinct := List.nodup_nil

/-- Registering keeps identifiers distinct. -/
theorem register_distinct {r registered : Registry} {k : RuleKind} (hd : r.Distinct)
    (h : r.register k = .ok registered) : registered.Distinct := by
  unfold register at h
  split at h
  next =>
    split at h
    next => cases Except.ok.inj h; exact hd
    next => simp at h
  next hnone =>
    cases Except.ok.inj h
    have hn : ∀ a ∈ r.kinds, a.identifier ≠ k.identifier := by
      simpa [get?, List.find?_eq_none] using hnone
    simp only [Distinct, List.map_append, List.map_cons, List.map_nil]
    apply List.nodup_append.mpr
    refine ⟨hd, by simp, ?_⟩
    intro a ha b hb
    obtain ⟨x, hx, rfl⟩ := List.mem_map.mp ha
    have hb' : b = k.identifier := by simpa using hb
    rw [hb']
    exact hn x hx

theorem foldlM_register_distinct {kinds : List RuleKind} {start r : Registry}
    (hd : start.Distinct) (h : kinds.foldlM register start = .ok r) : r.Distinct := by
  induction kinds generalizing start with
  | nil =>
    cases Except.ok.inj h
    exact hd
  | cons k kinds ih =>
    rw [List.foldlM_cons] at h
    cases hk : start.register k with
    | error f => rw [hk] at h; cases h
    | ok next => rw [hk] at h; exact ih (register_distinct hd hk) h

theorem ofKinds_distinct {kinds : List RuleKind} {r : Registry} (h : ofKinds kinds = .ok r) :
    r.Distinct :=
  foldlM_register_distinct distinct_empty h

theorem standard_distinct : standard.Distinct :=
  ofKinds_distinct (show ofKinds [.noneComparison, .weakDelegate] = .ok standard from rfl)

theorem identifier_of_get {r : Registry} {identifier : Text} {k : RuleKind}
    (h : r.get identifier = .ok k) : r.get? identifier = some k ∧ k.identifier = identifier := by
  unfold get at h
  split at h
  next found hf =>
    cases Except.ok.inj h
    exact ⟨hf, by simpa using List.find?_some hf⟩
  next => simp at h

theorem filter_eq_of_find? {kinds : List RuleKind} {identifier : Text} {k : RuleKind}
    (hd : (kinds.map (·.identifier)).Nodup)
    (h : kinds.find? (·.identifier = identifier) = some k) :
    kinds.filter (·.identifier = identifier) = [k] := by
  induction kinds with
  | nil => simp at h
  | cons a kinds ih =>
    have hd' := List.nodup_cons.mp hd
    by_cases ha : a.identifier = identifier
    · have hk : a = k := by simpa [ha] using h
      subst hk
      have hrest : kinds.filter (·.identifier = identifier) = [] := by
        apply List.filter_eq_nil_iff.mpr
        intro b hb
        have hne : b.identifier ≠ a.identifier := fun he => hd'.1 (List.mem_map.mpr ⟨b, hb, he⟩)
        simpa [← ha] using hne
      simp [ha, hrest]
    · have hk : kinds.find? (·.identifier = identifier) = some k := by simpa [ha] using h
      simpa [ha] using ih hd'.2 hk

theorem sorted_filter_eq {r : Registry} {identifier : Text} {k : RuleKind} (hd : r.Distinct)
    (h : r.get? identifier = some k) : r.sorted.filter (·.identifier = identifier) = [k] := by
  apply List.perm_singleton.mp
  have hp : (r.sorted.filter (·.identifier = identifier)).Perm
      (r.kinds.filter (·.identifier = identifier)) := (sortBy_perm r.kinds).filter _
  rwa [filter_eq_of_find? hd h] at hp

end Registry

theorem RuleKind.kind_of_configure {k : RuleKind} {options : Value} {r : Rule}
    (h : k.configure options = .ok r) : r.kind = k := by
  unfold configure at h
  dsimp only at h
  split at h
  next => simp at h
  next =>
    split at h
    next => cases Except.ok.inj h; rfl
    next => simp at h

namespace Configuration

/-- The configuration isolates the rule: it was made to let that one rule run. -/
def Isolates (c : Configuration) (r : Rule) : Prop :=
  c.registry.Distinct ∧ c.configured = [r] ∧
    ∃ options, isolating r.identifier options c.registry = .ok c

theorem isolating_eq_ok {identifier : Text} {options : Value} {registry : Registry}
    {c : Configuration} (h : isolating identifier options registry = .ok c) :
    ∃ k r, registry.get identifier = .ok k ∧ k.configure options = .ok r ∧
      c = { onlyRules := some [identifier], configured := [r], registry } := by
  unfold isolating at h
  cases hk : registry.get identifier with
  | error f => rw [hk] at h; cases h
  | ok k =>
    rw [hk] at h
    cases hr : k.configure options with
    | error f => simp only [bind, Except.bind, hr] at h; cases h
    | ok r =>
      simp only [bind, Except.bind, hr] at h
      cases Except.ok.inj h
      exact ⟨k, r, rfl, hr, rfl⟩

/-- Whatever is isolated successfully isolates a rule of the kind registered. -/
theorem isolates_of_isolating {identifier : Text} {options : Value} {registry : Registry}
    {c : Configuration} (hd : registry.Distinct)
    (h : isolating identifier options registry = .ok c) :
    ∃ k r, registry.get identifier = .ok k ∧ k.configure options = .ok r ∧ c.Isolates r := by
  obtain ⟨k, r, hk, hr, rfl⟩ := isolating_eq_ok h
  have hi : r.identifier = identifier := by
    rw [Rule.identifier, RuleKind.kind_of_configure hr]
    exact (Registry.identifier_of_get hk).2
  exact ⟨k, r, hk, hr, hd, rfl, options, by rw [hi]; exact h⟩

/-- Only the isolated rule runs, and only on files of its dialect. -/
theorem Isolates.rulesFor {c : Configuration} {r : Rule} (h : c.Isolates r) {d : Dialect}
    (hdialect : r.kind.dialect.name = d.name) : c.rulesFor d = .ok [r] := by
  obtain ⟨hd, hc, options, ho⟩ := h
  obtain ⟨k, r', hk, hr', heq⟩ := isolating_eq_ok ho
  obtain ⟨hget, hid⟩ := Registry.identifier_of_get hk
  have hsame : [r] = [r'] := by
    rw [← hc]
    exact congrArg Configuration.configured heq
  cases (List.cons.inj hsame).1
  have hkind := RuleKind.kind_of_configure hr'
  have hfilter : (c.registry.sorted.filter fun k => c.isEnabled k.identifier) = [k] := by
    rw [← Registry.sorted_filter_eq hd hget]
    apply List.filter_congr
    intro a _
    rw [heq]
    simp [isEnabled]
  have hrule : c.ruleOf k = .ok r := by
    have hi : r.identifier = k.identifier := by rw [Rule.identifier, hkind]
    simp [ruleOf, configured?, hc, hi]
  have hrules : c.rules = .ok [r] := by
    rw [rules, hfilter]
    simp [hrule, bind, Except.bind, pure, Except.pure]
  rw [Configuration.rulesFor, hrules]
  simp [Except.map, hdialect]

variable [Parser]

/-- Correcting with one rule is what that rule does. -/
theorem correct_of_rulesFor {c : Configuration} {r : Rule} {desk : Desk}
    (h : c.rulesFor desk.file.dialect = .ok [r]) : c.correct desk = r.correct desk := by
  unfold correct
  rw [h]
  simp only [correctWith]
  cases hr : r.correct desk with
  | mk outcome after =>
    cases outcome with
    | error f => rfl
    | ok made => simp

/-- Diagnosing with one rule keeps what that rule reports where it is enabled. -/
theorem diagnose_of_rulesFor {c : Configuration} {r : Rule} {f : SourceFile} {cache : ParseCache}
    (h : c.rulesFor f.dialect = .ok [r]) :
    (c.diagnose f cache).1 =
      (r.diagnose f cache).1.map fun found =>
        found.filter fun d => f.isEnabled r.identifier d.location := by
  unfold diagnose
  rw [h]
  simp only [diagnoseWith]
  cases hr : r.diagnose f cache with
  | mk outcome after =>
    cases outcome with
    | error f => rfl
    | ok found => simp [Except.map, SourceFile.isEnabled]

/-- What a rule among others contributes to the diagnostics stands between what the rules before
it and those after it contribute. -/
theorem diagnoseWith_split {f : SourceFile} {cache : ParseCache} {before after : List Rule}
    {r : Rule} {reported : List Diagnostic}
    (h : (diagnoseWith f cache (before ++ r :: after)).1 = .ok reported) :
    ∃ early found late, (diagnoseWith f cache before).1 = .ok early ∧
      (r.diagnose f (diagnoseWith f cache before).2).1 = .ok found ∧
      (diagnoseWith f (r.diagnose f (diagnoseWith f cache before).2).2 after).1 = .ok late ∧
      reported =
        early ++ found.filter (fun d => f.isEnabled r.identifier d.location) ++ late := by
  induction before generalizing cache reported with
  | nil =>
    simp only [List.nil_append, diagnoseWith] at h ⊢
    cases hr : r.diagnose f cache with
    | mk outcome next =>
      rw [hr] at h
      cases outcome with
      | error e => cases h
      | ok found =>
        dsimp only at h ⊢
        cases ha : diagnoseWith f next after with
        | mk outcome last =>
          rw [ha] at h
          cases outcome with
          | error e => cases h
          | ok late =>
            cases Except.ok.inj h
            exact ⟨[], found, late, rfl, rfl, rfl, rfl⟩
  | cons b before ih =>
    simp only [List.cons_append, diagnoseWith] at h ⊢
    cases hb : b.diagnose f cache with
    | mk outcome next =>
      rw [hb] at h
      cases outcome with
      | error e => cases h
      | ok first =>
        dsimp only at h ⊢
        cases ha : diagnoseWith f next (before ++ r :: after) with
        | mk outcome last =>
          rw [ha] at h
          cases outcome with
          | error e => cases h
          | ok rest =>
            cases Except.ok.inj h
            obtain ⟨early, found, late, hearly, hfound, hlate, rfl⟩ := ih (by rw [ha])
            cases he : diagnoseWith f next before with
            | mk outcome middle =>
              rw [he] at hearly hfound hlate
              cases (show outcome = .ok early from hearly)
              exact ⟨_, found, late, rfl, hfound, hlate, by simp⟩

end Configuration

end StyleRules
