import StyleRules.Proofs.ExampleChecks
import StyleRules.Rule.Literal
import Mathlib.Algebra.BigOperators.Group.List.Defs
import Mathlib.Algebra.Group.Action.Defs
import Mathlib.Algebra.Ring.Nat
import StyleRules.SyntaxTree.Comparison

namespace StyleRules

namespace Conformance

/-- Where each item gives one finding, gathering finds what going through the items does. -/
theorem gather_eq_mapM_single {α β : Type} {step : α → Bench → Except Fault (List β) × Bench}
    {Kept : Bench → Prop} {items : List α} {outcome : α → Except Fault β}
    (h : ∀ a ∈ items, ∀ bench, Kept bench →
      (step a bench).1 = (outcome a).map ([·]) ∧ Kept (step a bench).2)
    {bench : Bench} (kept : Kept bench) :
    (gather step items bench).1 = items.mapM outcome := by
  have hsingle : ∀ found : List β, (found.map ([·])).flatten = found := by
    intro found
    induction found with
    | nil => rfl
    | cons b found ih => rw [List.map_cons, List.flatten_cons, ih, List.singleton_append]
  rw [(gather_eq_mapM h kept).1, mapM_map]
  cases items.mapM outcome with
  | error f => rfl
  | ok found => exact congrArg Except.ok (hsingle found)

theorem length_of_mapM {α β : Type} {f : α → Except Fault β} {items : List α} {found : List β}
    (h : items.mapM f = .ok found) : found.length = items.length := by
  induction items generalizing found with
  | nil =>
    cases Except.ok.inj h
    rfl
  | cons a rest ih =>
    rw [List.mapM_cons] at h
    cases hf : f a with
    | error e =>
      rw [hf] at h
      cases h
    | ok b =>
      cases hrest : rest.mapM f with
      | error e =>
        rw [hf, hrest] at h
        cases h
      | ok bs =>
        rw [hf, hrest] at h
        cases Except.ok.inj h
        rw [List.length_cons, List.length_cons, ih hrest]

theorem foldl_length (found : List (Text × List Diagnostic)) (start : Nat) :
    found.foldl (fun total x => total + x.2.length) start =
      start + (found.map fun x => x.2.length).sum := by
  induction found generalizing start with
  | nil => rfl
  | cons x found ih => rw [List.foldl_cons, ih, List.map_cons, List.sum_cons, Nat.add_assoc]

theorem sum_le_length {counts : List Nat} (h : ∀ n ∈ counts, n ≤ 1) :
    counts.sum ≤ counts.length ∧ (counts.sum = counts.length → ∀ n ∈ counts, n = 1) := by
  induction counts with
  | nil => simp
  | cons n rest ih =>
    obtain ⟨hn, hrest⟩ := List.forall_mem_cons.mp h
    obtain ⟨hle, heq⟩ := ih hrest
    rw [List.sum_cons, List.length_cons, List.forall_mem_cons]
    exact ⟨by omega, fun hsum => ⟨by omega, heq (by omega)⟩⟩

theorem length_le_sum {counts : List Nat} (h : ∀ n ∈ counts, 1 ≤ n) :
    counts.length ≤ counts.sum ∧ (counts.sum = counts.length → ∀ n ∈ counts, n = 1) := by
  induction counts with
  | nil => simp
  | cons n rest ih =>
    obtain ⟨hn, hrest⟩ := List.forall_mem_cons.mp h
    obtain ⟨hle, heq⟩ := ih hrest
    rw [List.sum_cons, List.length_cons, List.forall_mem_cons]
    exact ⟨by omega, fun hsum => ⟨by omega, heq (by omega)⟩⟩

section Counting

variable [Parser]

/-- How many diagnostics a rule is left with on an example that is put into another text. -/
def yieldOf (r : Rule) (d : Dialect) (cache : ParseCache) (embed : Text → Text)
    (example_ : Text) : Except Fault Nat :=
  (leftOn r d cache (embed (Marked.strip example_).text)).map List.length

/-- The check of an embedding passes exactly if every example can be diagnosed and the diagnostics
of all of them together are as many as are asked for. -/
theorem checkEmbedded_passes_iff {v : Conformance} {c : Configuration} {r : Rule} {d : Dialect}
    {bench : Bench} (isolated : c.Isolates r) (dialect : r.kind.dialect.name = d.name)
    (check : Check) (embed : Text → Text) (perTrigger : Nat) :
    (∃ after, v.checkEmbedded check embed perTrigger c d bench = (.ok [], after)) ↔
      ∃ counts, v.description.triggering.mapM (yieldOf r d bench.cache embed) = .ok counts ∧
        counts.sum = perTrigger * v.description.triggering.length := by
  let left (e : Text) : Except Fault (Text × List Diagnostic) :=
    let text := embed (Marked.strip e).text
    (leftOn r d bench.cache text).map fun found => (text, found)
  have hyield : yieldOf r d bench.cache embed = fun e => (left e).map fun x => x.2.length := by
    funext e
    simp only [yieldOf, left]
    cases leftOn r d bench.cache (embed (Marked.strip e).text) <;> rfl
  rw [hyield, mapM_map]
  unfold checkEmbedded
  dsimp only
  generalize hcounted : gather _ v.description.triggering bench = counted
  have houtcome : counted.1 = v.description.triggering.mapM left := by
    rw [← hcounted]
    refine @gather_eq_mapM_single _ _ _
      (fun now => now.cache.languageFor d = bench.cache.languageFor d) _ _ ?_ _ rfl
    intro e _ now hnow
    obtain ⟨hleft, hkept⟩ := violations_eq_leftOn isolated dialect hnow
      (embed (Marked.strip e).text)
    simp only [left, ← hleft]
    generalize violations c d (embed (Marked.strip e).text) now = outcome at hkept ⊢
    obtain ⟨found, after⟩ := outcome
    cases found with
    | error f => exact ⟨rfl, hkept⟩
    | ok found => exact ⟨rfl, hkept⟩
  obtain ⟨outcome, after⟩ := counted
  rw [← show outcome = v.description.triggering.mapM left from houtcome]
  cases outcome with
  | error f =>
    constructor
    · rintro ⟨_, h⟩
      cases h
    · rintro ⟨_, h, -⟩
      cases h
  | ok found =>
    have htotal := foldl_length found 0
    rw [Nat.zero_add] at htotal
    dsimp only
    rw [htotal]
    constructor
    · rintro ⟨_, h⟩
      refine ⟨_, rfl, ?_⟩
      by_contra hne
      rw [if_neg hne] at h
      cases h
    · rintro ⟨counts, hcounts, hsum⟩
      cases Except.ok.inj hcounts
      exact ⟨after, if_pos hsum⟩

/-- The contexts that a rule is declared to be silent in or not: the check, how a text is put into
the context, and whether the rule is silent there. -/
def contexts (v : Conformance) (d : Dialect) : List (Check × (Text → Text) × Bool) :=
  [(.commentContext, d.commentOut, v.silentInComment),
    (.literalContext, d.textLiteral, v.silentInLiteral)]

def checkContext (v : Conformance) (c : Configuration) (d : Dialect)
    (context : Check × (Text → Text) × Bool) : Bench → Except Fault (List Failure) × Bench :=
  v.checkEmbedded context.1 context.2.1 (if context.2.2 then 0 else 1) c d

theorem map_checkContext (v : Conformance) (c : Configuration) (d : Dialect) :
    (v.contexts d).map (v.checkContext c d) = ((v.checks c d).drop 2).take 2 := rfl

/-- In a context in which a rule is not silent, the check counts the diagnostics of all triggering
examples together. -/
theorem checkContext_passes_iff_total {v : Conformance} {c : Configuration} {r : Rule}
    {d : Dialect} {bench : Bench} (isolated : c.Isolates r)
    (dialect : r.kind.dialect.name = d.name) :
    ∀ context ∈ v.contexts d, context.2.2 = false →
      let passes := ∃ after, v.checkContext c d context bench = (.ok [], after)
      let yields := v.description.triggering.mapM (yieldOf r d bench.cache context.2.1)
      v.checkContext c d context ∈ v.checks c d ∧
      (passes ↔
        ∃ counts, yields = .ok counts ∧ counts.sum = v.description.triggering.length) ∧
      ∀ counts, yields = .ok counts →
        ((∀ n ∈ counts, n = 1) → passes) ∧
        ((∀ n ∈ counts, n ≤ 1) ∨ (∀ n ∈ counts, 1 ≤ n) → passes → ∀ n ∈ counts, n = 1) := by
  intro context hcontext loud passes yields
  have hrun : v.checkContext c d context ∈ ((v.checks c d).drop 2).take 2 := by
    rw [← map_checkContext]
    exact List.mem_map_of_mem hcontext
  have hiff : passes ↔ ∃ counts, yields = .ok counts ∧
      counts.sum = v.description.triggering.length := by
    have h := @checkEmbedded_passes_iff _ v c r d bench isolated dialect context.1 context.2.1 1
    simp only [passes, checkContext, loud, Bool.false_eq_true, if_false]
    rwa [Nat.one_mul] at h
  refine ⟨List.mem_of_mem_drop (List.mem_of_mem_take hrun), hiff, fun counts hcounts =>
    ⟨fun hone => ?_, fun hbound hpasses => ?_⟩⟩
  · refine hiff.mpr ⟨counts, hcounts, ?_⟩
    rw [List.sum_eq_card_nsmul counts 1 hone, smul_eq_mul, Nat.mul_one, length_of_mapM hcounts]
  · obtain ⟨counts', hcounts', hsum⟩ := hiff.mp hpasses
    cases Except.ok.inj (hcounts.symm.trans hcounts')
    rw [← length_of_mapM hcounts] at hsum
    rcases hbound with hle | hge
    · exact (sum_le_length hle).2 hsum
    · exact (length_le_sum hge).2 hsum

end Counting

/-- A kind of rule that reports `b`, and `x` at the start of a line, in comments and literals as
well as in code. -/
def letterKind : RuleKind :=
  LiteralRule.kind
    { description :=
        { identifier := "letters".toList
          name := "Letters".toList
          summary := "Reports letters.".toList
          triggering := ["a\nx\n".toList, "b b\n".toList] }
      silentInComment := false
      silentInLiteral := false
      needles := ["\nx".toList, ['b']] }
    "letters".toList "LetterRule".toList

def letterConfiguration : Configuration :=
  { onlyRules := some ["letters".toList]
    configured := [{ kind := letterKind, settings := {} }]
    registry := { kinds := [letterKind] } }

theorem letterConfiguration_isolates :
    letterConfiguration.Isolates { kind := letterKind, settings := {} } :=
  ⟨List.nodup_singleton _, rfl, .null, rfl⟩

open scoped Comparison

theorem checkContext_passes_iff_total_letters :
    let r : Rule := { kind := letterKind, settings := {} }
    let v : Conformance :=
      { ofKind letterKind ⟨["tmp".toList]⟩ with
        description := { letterKind.description with triggering := ["b\n".toList, "a b".toList] } }
    let context := (Check.commentContext, Dialect.python.commentOut, v.silentInComment)
    letterConfiguration.Isolates r ∧ r.kind.dialect.name = Dialect.python.name ∧
      context ∈ v.contexts .python ∧ context.2.2 = false ∧
      ∃ after, v.checkContext letterConfiguration .python context {} = (.ok [], after) := by
  intro r v context
  have hcontext : context ∈ v.contexts .python := List.mem_cons_self
  refine ⟨letterConfiguration_isolates, rfl, hcontext, rfl, ?_⟩
  refine (@checkContext_passes_iff_total _ v _ _ _ {} letterConfiguration_isolates rfl
    context hcontext rfl).2.1.mpr ⟨[1, 1], ?_, ?_⟩
  · decide +kernel
  · decide +kernel

/-- In a comment and in a literal, one example has no diagnostics left and the other has two: the
checks of both contexts pass nevertheless. -/
theorem checkContext_hides_silent_example :
    let r : Rule := { kind := letterKind, settings := {} }
    let v := ofKind letterKind ⟨["tmp".toList]⟩
    v.construct = .ok (letterConfiguration, .python) ∧ letterConfiguration.Isolates r ∧
      (v.contexts .python).map (·.2.2) = [false, false] ∧
      ∀ context ∈ v.contexts .python,
        v.description.triggering.mapM (yieldOf r .python {} context.2.1) = .ok [0, 2] ∧
        (v.checkContext letterConfiguration .python context {}).1 = .ok [] := by
  intro r v
  refine ⟨rfl, letterConfiguration_isolates, rfl, ?_⟩
  simp only [contexts, List.forall_mem_cons]
  refine ⟨⟨?_, ?_⟩, ⟨?_, ?_⟩, fun _ h => absurd h List.not_mem_nil⟩
  all_goals decide +kernel

end Conformance

end StyleRules
