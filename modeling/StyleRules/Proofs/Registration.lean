import StyleRules.Proofs.Isolation
import Mathlib.Data.List.Nodup
import StyleRules.SyntaxTree.Comparison

namespace StyleRules

namespace Registry

variable {r : Registry} {k : RuleKind}

/-- The registry after an attempt to register a kind: a fault leaves it as it was. -/
def attempt (r : Registry) (k : RuleKind) : Registry := (r.register k).toOption.getD r

/-- The registry after attempts one after the other, whatever comes of each. -/
def attempts (r : Registry) (kinds : List RuleKind) : Registry := kinds.foldl attempt r

theorem register_of_new (h : r.get? k.identifier = none) :
    r.register k = .ok { kinds := r.kinds ++ [k] } := by
  rw [register, h]

theorem register_of_same {first : RuleKind} (h : r.get? k.identifier = some first)
    (same : first.key = k.key) : r.register k = .ok r := by
  rw [register, h]
  exact if_pos same

theorem register_of_other {first : RuleKind} (h : r.get? k.identifier = some first)
    (other : first.key ≠ k.key) : r.register k = .error (.ruleTaken k.identifier) := by
  rw [register, h]
  exact if_neg other

theorem get?_concat (r : Registry) (k : RuleKind) (identifier : Text) :
    get? { kinds := r.kinds ++ [k] } identifier =
      (r.get? identifier).or ([k].find? (·.identifier = identifier)) := by
  rw [get?, List.find?_append, get?]

/-- An attempt binds an identifier only if it was free. -/
theorem get?_attempt (r : Registry) (k : RuleKind) (identifier : Text) :
    (r.attempt k).get? identifier =
      (r.get? identifier).or ([k].find? (·.identifier = identifier)) := by
  cases h : r.get? k.identifier with
  | none =>
    rw [attempt, register_of_new h]
    exact get?_concat r k identifier
  | some first =>
    have hkept : r.attempt k = r := by
      by_cases same : first.key = k.key
      · rw [attempt, register_of_same h same]
        rfl
      · rw [attempt, register_of_other h same]
        rfl
    rw [hkept]
    by_cases hi : k.identifier = identifier
    · rw [← hi, h]
      rfl
    · rw [List.find?_singleton, if_neg (by simpa using hi), Option.or_none]

/-- After any attempts an identifier is bound as before them, or else to the first kind that came
with it. -/
theorem get?_attempts (r : Registry) (kinds : List RuleKind) (identifier : Text) :
    (r.attempts kinds).get? identifier =
      (r.get? identifier).or (kinds.find? (·.identifier = identifier)) := by
  induction kinds generalizing r with
  | nil => exact Option.or_none.symm
  | cons k kinds ih =>
    rw [attempts, List.foldl_cons, ← attempts, ih, get?_attempt, Option.or_assoc,
      ← List.find?_append, List.singleton_append]

/-- A kind is refused exactly if another kind came first under its identifier. -/
theorem register_eq_error_iff {f : Fault} :
    r.register k = .error f ↔
      (∃ first, r.get? k.identifier = some first ∧ first.key ≠ k.key) ∧
        f = .ruleTaken k.identifier := by
  cases h : r.get? k.identifier with
  | none => simp [register_of_new h]
  | some first =>
    by_cases same : first.key = k.key
    · simp [register_of_same h same, same]
    · rw [register_of_other h same, Except.error.injEq, eq_comm]
      exact ⟨fun hf => ⟨⟨first, rfl, same⟩, hf⟩, And.right⟩

theorem get?_of_register {next : Registry} (h : r.register k = .ok next) :
    ∃ first, next.get? k.identifier = some first ∧ first.key = k.key := by
  cases hfind : r.get? k.identifier with
  | none =>
    rw [register_of_new hfind] at h
    cases Except.ok.inj h
    refine ⟨k, ?_, rfl⟩
    rw [get?_concat, hfind]
    simp
  | some first =>
    by_cases same : first.key = k.key
    · rw [register_of_same hfind same] at h
      cases Except.ok.inj h
      exact ⟨first, hfind, same⟩
    · rw [register_of_other hfind same] at h
      cases h

theorem attempt_of_register {next : Registry} (h : r.register k = .ok next) :
    r.attempt k = next := by
  rw [attempt, h]
  rfl

theorem attempt_of_refused {f : Fault} (h : r.register k = .error f) : r.attempt k = r := by
  rw [attempt, h]
  rfl

theorem attempts_distinct (hd : r.Distinct) (kinds : List RuleKind) :
    (r.attempts kinds).Distinct := by
  induction kinds generalizing r with
  | nil => exact hd
  | cons k kinds ih =>
    apply ih
    cases h : r.register k with
    | error f =>
      rw [attempt_of_refused h]
      exact hd
    | ok next =>
      rw [attempt_of_register h]
      exact register_distinct hd h

/-- Where every registration succeeds, each kind finds its own key under its identifier. -/
theorem attempts_of_foldlM {start registered : Registry} {kinds : List RuleKind}
    (h : kinds.foldlM register start = .ok registered) :
    registered = start.attempts kinds ∧
      ∀ k ∈ kinds, ∃ first, registered.get? k.identifier = some first ∧ first.key = k.key := by
  induction kinds generalizing start with
  | nil => exact ⟨(Except.ok.inj h).symm, by simp⟩
  | cons k kinds ih =>
    rw [List.foldlM_cons] at h
    cases hk : start.register k with
    | error f => rw [hk] at h; cases h
    | ok next =>
      rw [hk] at h
      obtain ⟨hrest, hbound⟩ := ih h
      refine ⟨by rw [attempts, List.foldl_cons, attempt_of_register hk]; exact hrest, ?_⟩
      intro other hother
      rcases List.mem_cons.mp hother with rfl | hother
      · obtain ⟨first, hfirst, hkey⟩ := get?_of_register hk
        exact ⟨first, by rw [hrest, get?_attempts, hfirst, Option.some_or], hkey⟩
      · exact hbound other hother

theorem identifiers_eq (r : Registry) : r.identifiers = r.sorted.map (·.identifier) :=
  (map_sortBy r.kinds).symm

theorem sorted_strict (hd : r.Distinct) :
    r.sorted.Pairwise fun a b => compare a.identifier b.identifier = .lt :=
  sortBy_strict hd

theorem mem_sorted : k ∈ r.sorted ↔ k ∈ r.kinds := (sortBy_perm r.kinds).mem_iff

theorem mem_kinds_iff (hd : r.Distinct) : k ∈ r.kinds ↔ r.get? k.identifier = some k := by
  constructor
  · intro h
    cases hfind : r.get? k.identifier with
    | none => simpa using List.find?_eq_none.mp hfind k h
    | some first =>
      have hone := filter_eq_of_find? hd hfind
      have hk : k ∈ r.kinds.filter (·.identifier = k.identifier) :=
        List.mem_filter.mpr ⟨h, by simp⟩
      rw [hone] at hk
      rw [List.mem_singleton.mp hk]
  · exact List.mem_of_find?_eq_some

/-- A key stands for one kind. -/
def Keyed (kinds : List RuleKind) : Prop := ∀ a ∈ kinds, ∀ b ∈ kinds, a.key = b.key → a = b

/-- A registry holds exactly the kinds whose registrations succeeded. -/
theorem mem_kinds_of_ofKinds {kinds : List RuleKind} (keyed : Keyed kinds)
    (h : ofKinds kinds = .ok r) : k ∈ r.kinds ↔ k ∈ kinds := by
  obtain ⟨heq, hbound⟩ := attempts_of_foldlM h
  have hget (identifier : Text) :
      r.get? identifier = kinds.find? (·.identifier = identifier) := by
    rw [heq, get?_attempts]
    rfl
  rw [mem_kinds_iff (ofKinds_distinct h)]
  constructor
  · intro hk
    rw [hget] at hk
    exact List.mem_of_find?_eq_some hk
  · intro hk
    obtain ⟨first, hfirst, hkey⟩ := hbound k hk
    have hmem : first ∈ kinds := by
      rw [hget] at hfirst
      exact List.mem_of_find?_eq_some hfirst
    rw [hfirst, keyed first hmem k hk hkey]

/-- The order of registrations does not show in the order in which kinds come out. -/
theorem sorted_of_ofKinds {xs ys : List RuleKind} {other : Registry}
    (same : ∀ k, k ∈ xs ↔ k ∈ ys) (keyed : Keyed xs) (hx : ofKinds xs = .ok r)
    (hy : ofKinds ys = .ok other) : r.sorted = other.sorted := by
  have keyed' : Keyed ys := fun a ha b hb => keyed a ((same a).mpr ha) b ((same b).mpr hb)
  have hperm : r.kinds.Perm other.kinds := by
    apply (List.perm_ext_iff_of_nodup (List.Nodup.of_map _ (ofKinds_distinct hx))
      (List.Nodup.of_map _ (ofKinds_distinct hy))).mpr
    intro k
    rw [mem_kinds_of_ofKinds keyed hx, mem_kinds_of_ofKinds keyed' hy, same]
  exact sortBy_eq_of_perm hperm (ofKinds_distinct hx)

end Registry

namespace Configuration

/-- The last of some rules with an identifier. -/
def lastWith (identifier : Text) (rules : List Rule) : Option Rule :=
  (rules.filter (·.identifier = identifier)).getLast?

theorem configured?_eq (c : Configuration) (identifier : Text) :
    c.configured? identifier = lastWith identifier c.configured := by
  rw [configured?, lastWith, List.getLast?_eq_head?_reverse, ← List.filter_reverse,
    List.head?_filter]

theorem ruleOf_eq (c : Configuration) (k : RuleKind) :
    c.ruleOf k = (lastWith k.identifier c.configured).elim (k.configure .null) .ok := by
  rw [ruleOf, configured?_eq]
  cases lastWith k.identifier c.configured <;> rfl

/-- What runs depends on the registry only through the order in which its kinds come out, and on
the rules configured only through the last one of each identifier. -/
theorem rules_congr {c other : Configuration} (only : c.onlyRules = other.onlyRules)
    (disabled : c.disabledRules = other.disabledRules)
    (sorted : c.registry.sorted = other.registry.sorted)
    (last : ∀ identifier,
      lastWith identifier c.configured = lastWith identifier other.configured) :
    c.rules = other.rules := by
  have henabled : c.isEnabled = other.isEnabled := by
    funext identifier
    rw [isEnabled, isEnabled, only, disabled]
  have hrule : c.ruleOf = other.ruleOf := by
    funext k
    rw [ruleOf_eq, ruleOf_eq, last]
  rw [rules, rules, sorted, henabled, hrule]

theorem diagnose_congr [Parser] {c other : Configuration} (h : c.rules = other.rules) :
    c.diagnose = other.diagnose := by
  funext f cache
  rw [diagnose, diagnose, rulesFor, rulesFor, h]

theorem correct_congr [Parser] {c other : Configuration} (h : c.rules = other.rules) :
    c.correct = other.correct := by
  funext desk
  rw [correct, correct, rulesFor, rulesFor, h]

/-- The rules that run are, for each enabled kind once and ascending by identifier, the last rule
configured under its identifier, or else its default. -/
theorem rules_eq_mapM {xs : List RuleKind} {c : Configuration} (keyed : Registry.Keyed xs)
    (registered : Registry.ofKinds xs = .ok c.registry) :
    ∃ kinds : List RuleKind,
      kinds.Pairwise (fun a b => compare a.identifier b.identifier = .lt) ∧
        (∀ k, k ∈ kinds ↔ k ∈ xs ∧ c.isEnabled k.identifier) ∧
        c.rules = kinds.mapM fun k =>
          (lastWith k.identifier c.configured).elim (k.configure .null) .ok := by
  refine ⟨c.registry.sorted.filter fun k => c.isEnabled k.identifier, ?_, ?_, ?_⟩
  · exact (Registry.sorted_strict (Registry.ofKinds_distinct registered)).filter _
  · intro k
    rw [List.mem_filter, Registry.mem_sorted, Registry.mem_kinds_of_ofKinds keyed registered]
  · rw [rules, funext c.ruleOf_eq]

/-- Neither the order of registrations nor that of configured rules shows in what runs on a file,
and an identifier stays with the first kind that came with it. -/
theorem rules_eq_of_histories [Parser] {xs ys : List RuleKind} {c : Configuration} {other : Registry}
    {configured : List Rule} (same : ∀ k, k ∈ xs ↔ k ∈ ys) (keyed : Registry.Keyed xs)
    (hx : Registry.ofKinds xs = .ok c.registry) (hy : Registry.ofKinds ys = .ok other)
    (last : ∀ identifier, lastWith identifier c.configured = lastWith identifier configured) :
    let c' : Configuration := { c with configured, registry := other }
    (∃ kinds : List RuleKind,
        kinds.Pairwise (fun a b => compare a.identifier b.identifier = .lt) ∧
          (∀ k, k ∈ kinds ↔ k ∈ xs ∧ c.isEnabled k.identifier) ∧
          c.rules = kinds.mapM fun k =>
            (lastWith k.identifier c.configured).elim (k.configure .null) .ok) ∧
      c'.rules = c.rules ∧
      (∀ f cache, c'.diagnose f cache = c.diagnose f cache) ∧
      (∀ desk, c'.correct desk = c.correct desk) ∧
      ∀ history : List RuleKind,
        let now := ({} : Registry).attempts history
        (∀ identifier, now.get? identifier = history.find? (·.identifier = identifier)) ∧
          (∀ k f, now.register k = .error f ↔
            (∃ first, history.find? (·.identifier = k.identifier) = some first ∧
              first.key ≠ k.key) ∧ f = .ruleTaken k.identifier) ∧
          (∀ k f, now.register k = .error f →
            ({} : Registry).attempts (history ++ [k]) = now) ∧
          (∀ k, k ∈ now.sorted ↔ history.find? (·.identifier = k.identifier) = some k) ∧
          now.sorted.Pairwise (fun a b => compare a.identifier b.identifier = .lt) ∧
          now.identifiers = now.sorted.map (·.identifier) := by
  intro c'
  have hrules : c'.rules = c.rules :=
    rules_congr rfl rfl (Registry.sorted_of_ofKinds same keyed hx hy).symm fun i => (last i).symm
  refine ⟨rules_eq_mapM keyed hx, hrules, fun f cache => by rw [diagnose_congr hrules],
    fun desk => by rw [correct_congr hrules], ?_⟩
  intro history now
  have hdistinct : now.Distinct := Registry.attempts_distinct Registry.distinct_empty history
  have hget (identifier : Text) :
      now.get? identifier = history.find? (·.identifier = identifier) := by
    rw [Registry.get?_attempts]
    rfl
  refine ⟨hget, ?_, ?_, ?_, Registry.sorted_strict hdistinct, Registry.identifiers_eq now⟩
  · intro k f
    rw [Registry.register_eq_error_iff, hget]
  · intro k f refused
    rw [Registry.attempts, List.foldl_append]
    exact Registry.attempt_of_refused refused
  · intro k
    rw [Registry.mem_sorted, Registry.mem_kinds_iff hdistinct, hget]

open scoped Comparison

theorem rules_eq_of_histories_builtin :
    let strict : Rule := { kind := .noneComparison, settings := { severity := .error } }
    let mild : Rule := { kind := .noneComparison, settings := {} }
    let delegates : Rule := { kind := .weakDelegate, settings := {} }
    let impostor : RuleKind := { RuleKind.weakDelegate with key := "impostor".toList }
    let c : Configuration := { configured := [strict, delegates, mild] }
    let c' : Configuration :=
      { c with
        configured := [delegates, mild]
        registry := { kinds := [.weakDelegate, .noneComparison] } }
    let now := ({} : Registry).attempts [.weakDelegate, impostor, .noneComparison]
    c.rules = .ok [mild, delegates] ∧ c'.rules = c.rules ∧
      (∀ f cache, c'.diagnose f cache = c.diagnose f cache) ∧
      (∀ desk, c'.correct desk = c.correct desk) ∧
      now.register impostor = .error (.ruleTaken "weak_delegate".toList) ∧
      now.identifiers = now.sorted.map (·.identifier) := by
  intro strict mild delegates impostor c c' now
  have same (k : RuleKind) : k ∈ [RuleKind.noneComparison, .weakDelegate, .noneComparison] ↔
      k ∈ [RuleKind.weakDelegate, .noneComparison] := by
    simp [or_comm]
  have keyed : Registry.Keyed [.noneComparison, .weakDelegate, .noneComparison] := by
    have apart : RuleKind.noneComparison.key ≠ RuleKind.weakDelegate.key := by decide
    simp [Registry.Keyed, apart, apart.symm]
  have last (identifier : Text) : lastWith identifier c.configured =
      lastWith identifier [delegates, mild] := by
    by_cases hn : RuleKind.noneComparison.identifier = identifier
    · rw [← hn]
      rfl
    · simp [lastWith, c, strict, mild, delegates, Rule.identifier, List.filter_cons, hn]
  obtain ⟨-, hrules, hdiagnose, hcorrect, hhistory⟩ :=
    rules_eq_of_histories same keyed rfl rfl last
  obtain ⟨-, hrefused, -, -, -, hidentifiers⟩ :=
    hhistory [.weakDelegate, impostor, .noneComparison]
  refine ⟨rfl, hrules, hdiagnose, hcorrect, ?_, hidentifiers⟩
  exact (hrefused impostor _).mpr ⟨⟨.weakDelegate, rfl, by decide⟩, rfl⟩

end Configuration

end StyleRules
