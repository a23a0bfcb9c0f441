import StyleRules.Proofs.CorrectionCases
import StyleRules.Proofs.ExampleChecks
import StyleRules.Rule.Literal
import StyleRules.SyntaxTree.Comparison

namespace StyleRules

/-- The fault that an outcome is, if it is one. -/
def Fault.of? {α : Type} : Except Fault α → Option Fault
  | .error f => some f
  | .ok _ => none

theorem Fault.of?_eq_some_iff {α : Type} {outcome : Except Fault α} {f : Fault} :
    Fault.of? outcome = some f ↔ outcome = .error f := by
  cases outcome <;> simp [Fault.of?]

namespace Conformance

def run (check : Bench → Except Fault (List Failure) × Bench) (bench : Bench) :
    Except Fault (List Failure) × Bench :=
  check { bench with cache := bench.cache.clear }

/-- Checks that are run one after the other, with what each of them finds. -/
inductive Ran : List (Bench → Except Fault (List Failure) × Bench) → Bench →
    List (List Failure) → Bench → Prop where
  | nil (bench : Bench) : Ran [] bench [] bench
  | cons {check : Bench → Except Fault (List Failure) × Bench} {rest}
      {bench next last : Bench} {found : List Failure} {more : List (List Failure)}
      (first : run check bench = (.ok found, next)) (others : Ran rest next more last) :
      Ran (check :: rest) bench (found :: more) last

theorem verify_of_construct [Parser] {v : Conformance} {c : Configuration} {d : Dialect}
    (constructed : v.construct = .ok (c, d)) (bench : Bench) :
    v.verify bench =
      ((gather run (v.checks c d) bench).1.map fun failures => ⟨v.identifier, failures⟩,
        (gather run (v.checks c d) bench).2) := by
  unfold verify
  rw [constructed]
  dsimp only
  generalize hgathered : gather _ (v.checks c d) bench = gathered
  have hrun : gather run (v.checks c d) bench = gathered := hgathered
  rw [hrun]
  obtain ⟨result, after⟩ := gathered
  cases result with
  | error f => rfl
  | ok failures => rfl

/-- Gathering findings raises what the first items raise, or else what the others raise after
them. -/
theorem of?_gather_append {α β : Type} (step : α → Bench → Except Fault (List β) × Bench)
    (items others : List α) (bench : Bench) :
    Fault.of? (gather step (items ++ others) bench).1 =
      (Fault.of? (gather step items bench).1).or
        (Fault.of? (gather step others (gather step items bench).2).1) := by
  induction items generalizing bench with
  | nil => rfl
  | cons a rest ih =>
    simp only [List.cons_append, gather]
    obtain ⟨result, next⟩ := step a bench
    cases result with
    | error f => rfl
    | ok found =>
      have hrest := ih next
      dsimp only
      generalize gather step (rest ++ others) next = all at hrest ⊢
      generalize gather step rest next = some at hrest ⊢
      obtain ⟨all, last⟩ := all
      obtain ⟨some, middle⟩ := some
      cases all with
      | error f =>
        cases some with
        | error g => exact hrest
        | ok more => exact hrest
      | ok more =>
        cases some with
        | error g => exact hrest
        | ok more => exact hrest

/-- What gathering findings raises, one of the items raises. -/
theorem raised_of_gather {α β : Type} {step : α → Bench → Except Fault (List β) × Bench}
    {items : List α} {bench : Bench} {f : Fault} (h : (gather step items bench).1 = .error f) :
    ∃ a ∈ items, ∃ now, (step a now).1 = .error f := by
  induction items generalizing bench with
  | nil => cases h
  | cons a rest ih =>
    cases hstep : step a bench with
    | mk result next =>
      simp only [gather, hstep] at h
      cases result with
      | error g => exact ⟨a, List.mem_cons_self, bench, by rw [hstep]; exact h⟩
      | ok found =>
        cases hrest : gather step rest next with
        | mk more last =>
          simp only [hrest] at h
          cases more with
          | ok more => cases h
          | error g =>
            obtain ⟨b, hb, now, hnow⟩ := ih (by rw [hrest]; exact h)
            exact ⟨b, List.mem_cons_of_mem a hb, now, hnow⟩

/-- Checks that are gathered without a fault are all run. -/
theorem ran_of_gather {checks : List (Bench → Except Fault (List Failure) × Bench)}
    {bench : Bench} {failures : List Failure}
    (h : (gather run checks bench).1 = .ok failures) :
    ∃ findings, Ran checks bench findings (gather run checks bench).2 ∧
      failures = findings.flatten := by
  induction checks generalizing bench failures with
  | nil =>
    cases Except.ok.inj h
    exact ⟨[], .nil bench, rfl⟩
  | cons check rest ih =>
    cases hstep : run check bench with
    | mk result next =>
      simp only [gather, hstep] at h ⊢
      cases result with
      | error f => cases h
      | ok found =>
        cases hrest : gather run rest next with
        | mk more last =>
          simp only [hrest] at h ⊢
          cases more with
          | error f => cases h
          | ok more =>
            cases Except.ok.inj h
            obtain ⟨findings, hran, rfl⟩ := @ih next more (by rw [hrest])
            rw [hrest] at hran
            exact ⟨found :: findings, .cons hstep hran, rfl⟩

/-- The rule that a verification constructs is the only one that runs, in its own dialect. -/
theorem isolates_of_construct {v : Conformance} {c : Configuration} {d : Dialect}
    (distinct : v.registry.Distinct) (constructed : v.construct = .ok (c, d)) :
    ∃ r, c.Isolates r ∧ r.kind.dialect = d := by
  unfold construct at constructed
  cases hk : v.registry.get v.identifier with
  | error f =>
    rw [hk] at constructed
    cases constructed
  | ok kind =>
    cases hc : Configuration.isolating v.identifier v.options v.registry with
    | error f =>
      simp only [hk, hc, bind, Except.bind] at constructed
      cases constructed
    | ok c' =>
      simp only [hk, hc, bind, Except.bind] at constructed
      cases constructed
      obtain ⟨k, r, hk', hr, hisolates⟩ := Configuration.isolates_of_isolating distinct hc
      cases Except.ok.inj (hk.symm.trans hk')
      exact ⟨r, hisolates, congrArg RuleKind.dialect (RuleKind.kind_of_configure hr)⟩

section Raising

variable [Parser]

/-- Some work raises what diagnosing the first of some texts raises that cannot be diagnosed, and
keeps the grammar. -/
def Inspects {β : Type} (r : Rule) (d : Dialect) (cache : ParseCache) (texts : List Text)
    (work : Bench → Except Fault β × Bench) : Prop :=
  ∀ now : Bench, now.cache.languageFor d = cache.languageFor d →
    Fault.of? (work now).1 = texts.findSome? (fun text => Fault.of? (leftOn r d cache text)) ∧
      (work now).2.cache.languageFor d = cache.languageFor d

section Diagnosing

variable {c : Configuration} {r : Rule} {d : Dialect} {cache : ParseCache}

theorem Inspects.nil {α β : Type} (step : α → Bench → Except Fault (List β) × Bench) :
    Inspects r d cache [] (gather step []) := fun _ hnow => ⟨rfl, hnow⟩

/-- Gathering findings inspects what the work on the first item inspects, and then what the work on
the others does. -/
theorem Inspects.cons {α β : Type} {step : α → Bench → Except Fault (List β) × Bench} {a : α}
    {rest : List α} {texts more : List Text} (first : Inspects r d cache texts (step a))
    (others : Inspects r d cache more (gather step rest)) :
    Inspects r d cache (texts ++ more) (gather step (a :: rest)) := by
  intro now hnow
  obtain ⟨hfirst, hnext⟩ := first now hnow
  rw [List.findSome?_append, ← hfirst]
  simp only [gather]
  generalize step a now = outcome at hnext
  obtain ⟨result, next⟩ := outcome
  cases result with
  | error f => exact ⟨rfl, hnext⟩
  | ok found =>
    obtain ⟨hmore, hlast⟩ := others next hnext
    dsimp only
    rw [← hmore]
    generalize gather step rest next = outcome at hlast
    obtain ⟨more, last⟩ := outcome
    cases more with
    | error f => exact ⟨rfl, hlast⟩
    | ok more => exact ⟨rfl, hlast⟩

/-- Work that raises what other work raises, and keeps the grammar if that does, inspects what that
inspects. -/
theorem Inspects.of_same {β γ : Type} {texts : List Text} {work : Bench → Except Fault β × Bench}
    {other : Bench → Except Fault γ × Bench} (h : Inspects r d cache texts other)
    (same : ∀ now, Fault.of? (work now).1 = Fault.of? (other now).1 ∧
      (work now).2.cache.languageFor d = (other now).2.cache.languageFor d) :
    Inspects r d cache texts work := fun now hnow =>
  ⟨(same now).1.trans (h now hnow).1, (same now).2.trans (h now hnow).2⟩

theorem violations_inspects (isolated : c.Isolates r) (dialect : r.kind.dialect.name = d.name)
    (text : Text) : Inspects r d cache [text] (violations c d text) := by
  intro now hnow
  obtain ⟨hleft, hkept⟩ := violations_eq_leftOn isolated dialect hnow text
  rw [hleft]
  exact ⟨by rw [List.findSome?_singleton], hkept⟩

/-- Gathering what there is to say about one text for each item inspects these texts. -/
theorem gather_inspects_map {α β : Type} {step : α → Bench → Except Fault (List β) × Bench}
    {text : α → Text} (isolated : c.Isolates r) (dialect : r.kind.dialect.name = d.name)
    (items : List α)
    (same : ∀ a now, Fault.of? (step a now).1 = Fault.of? (violations c d (text a) now).1 ∧
      (step a now).2.cache.languageFor d = (violations c d (text a) now).2.cache.languageFor d) :
    Inspects r d cache (items.map text) (gather step items) := by
  induction items with
  | nil => exact .nil step
  | cons a rest ih =>
    exact .cons ((violations_inspects isolated dialect (text a)).of_same (same a)) ih

theorem Inspects.run {texts : List Text} {check : Bench → Except Fault (List Failure) × Bench}
    (h : Inspects r d cache texts check) : Inspects r d cache texts (run check) := fun now hnow =>
  h { now with cache := now.cache.clear } ((now.cache.languageFor_clear d).trans hnow)

variable (v : Conformance) (isolated : c.Isolates r) (dialect : r.kind.dialect.name = d.name)
include isolated dialect

theorem checkNonTriggering_inspects :
    Inspects r d cache (v.description.nonTriggering.map fun e => (Marked.strip e).text)
      (v.checkNonTriggering c d) := by
  refine gather_inspects_map isolated dialect _ fun e now => ?_
  dsimp only
  obtain ⟨result, after⟩ := violations c d (Marked.strip e).text now
  rcases result with f | _ | _
  all_goals exact ⟨rfl, rfl⟩

theorem checkTriggering_inspects :
    Inspects r d cache (v.description.triggering.map fun e => (Marked.strip e).text)
      (v.checkTriggering c d) := by
  refine gather_inspects_map isolated dialect _ fun e now => ?_
  dsimp only
  obtain ⟨result, after⟩ := violations c d (Marked.strip e).text now
  cases result with
  | error f => exact ⟨rfl, rfl⟩
  | ok found =>
    dsimp only
    split
    next => exact ⟨rfl, ParseCache.languageFor_lineIndex ..⟩
    next =>
      split
      next => exact ⟨rfl, rfl⟩
      next => exact ⟨rfl, rfl⟩

theorem checkEmbedded_inspects (check : Check) (embed : Text → Text) (perTrigger : Nat) :
    Inspects r d cache (v.description.triggering.map fun e => embed (Marked.strip e).text)
      (v.checkEmbedded check embed perTrigger c d) := by
  intro now hnow
  unfold checkEmbedded
  dsimp only
  generalize hcounted : gather _ v.description.triggering now = counted
  have hcount : Fault.of? counted.1 =
        (v.description.triggering.map fun e => embed (Marked.strip e).text).findSome?
          (fun text => Fault.of? (leftOn r d cache text)) ∧
      counted.2.cache.languageFor d = cache.languageFor d := by
    rw [← hcounted]
    refine gather_inspects_map isolated dialect v.description.triggering (fun e now => ?_) now hnow
    obtain ⟨result, after⟩ := violations c d (embed (Marked.strip e).text) now
    cases result with
    | error f => exact ⟨rfl, rfl⟩
    | ok found => exact ⟨rfl, rfl⟩
  obtain ⟨result, after⟩ := counted
  cases result with
  | error f => exact hcount
  | ok found =>
    dsimp only
    split
    next => exact hcount
    next => exact hcount

end Diagnosing

/-- What the verification of a correction raises, the rule raises when it corrects the text, and it
is no fault of the store. -/
theorem raised_of_verifyCorrection {c : Configuration} {r : Rule} {d : Dialect} {scratch : Path}
    {check : Check} {before expected : Text} {bench : Bench} {f : Fault}
    (isolated : c.Isolates r) (dialect : r.kind.dialect.name = d.name)
    (h : (verifyCorrection c d scratch check before expected bench).1 = .error f) :
    (∀ fault path, f ≠ .store fault path) ∧
      ∃ desk : Desk, desk.file.contents = (Marked.strip before).text ∧ desk.file.dialect = d ∧
        (r.correct desk).1 = .error f := by
  unfold verifyCorrection at h
  dsimp only at h
  generalize bench.store.freshPath scratch (d.extensions.headD []) = path at h
  cases hw : bench.store.write path (Text.encode (Marked.strip before).text) with
  | error g =>
    rw [hw] at h
    cases h
  | ok store =>
    have hload := SourceFile.load_of_read d (Store.read_write hw)
    simp only [hw, hload] at h
    generalize hdesk : Desk.mk _ _ store = desk at h
    have hrules : c.rulesFor desk.file.dialect = .ok [r] := by
      rw [← hdesk]
      exact isolated.rulesFor dialect
    rw [Configuration.correct_of_rulesFor hrules] at h
    split at h
    next => cases h
    next f' hstore houtcome =>
      cases h
      refine ⟨fun fault path h => hstore fault path h, desk, ?_, ?_, houtcome⟩
      all_goals rw [← hdesk]
    next => cases h

/-- What verifying the correction of one text for each item raises, the rule raises when it corrects
one of these texts. -/
theorem raised_of_gather_verifyCorrection {α : Type} {c : Configuration} {r : Rule} {d : Dialect}
    {scratch : Path} {check : Check} {before expected : α → Text} {items : List α} {bench : Bench}
    {f : Fault} (isolated : c.Isolates r) (dialect : r.kind.dialect.name = d.name)
    (h : (gather (fun a => verifyCorrection c d scratch check (before a) (expected a)) items
      bench).1 = .error f) :
    (∀ fault path, f ≠ .store fault path) ∧
      ∃ desk : Desk, desk.file.contents ∈ items.map (fun a => (Marked.strip (before a)).text) ∧
        desk.file.dialect = d ∧ (r.correct desk).1 = .error f := by
  obtain ⟨a, ha, now, hraised⟩ := raised_of_gather h
  obtain ⟨hstore, desk, hcontents, hdialect, hcorrect⟩ :=
    raised_of_verifyCorrection isolated dialect hraised
  exact ⟨hstore, desk, List.mem_map.mpr ⟨a, ha, hcontents.symm⟩, hdialect, hcorrect⟩

/-- The texts that are diagnosed in a verification, in their order. -/
def inspected (v : Conformance) (d : Dialect) : List Text :=
  let strip (e : Text) := (Marked.strip e).text
  let texts (embed : Text → Text) := v.description.triggering.map fun e => embed (strip e)
  v.description.nonTriggering.map strip ++ v.description.triggering.map strip
    ++ texts d.commentOut ++ texts d.textLiteral
    ++ texts (d.disableDirective v.identifier ++ ·)

/-- The texts that are corrected in a verification, in their order. -/
def corrected (v : Conformance) (d : Dialect) : List Text :=
  let strip (e : Text) := (Marked.strip e).text
  v.description.corrections.map (fun e => strip e.before) ++ v.description.nonTriggering.map strip
    ++ v.description.corrections.map fun e =>
      strip (strip (d.disableDirective v.identifier ++ e.before))

section Verify

variable {v : Conformance} {c : Configuration} {r : Rule} {d : Dialect} {bench : Bench}

/-- The checks that diagnose are the first ones; they raise what diagnosing the first text raises
that cannot be diagnosed. -/
theorem diagnosing_inspects {cache : ParseCache} (isolated : c.Isolates r)
    (dialect : r.kind.dialect.name = d.name) :
    Inspects r d cache (v.inspected d) (gather run ((v.checks c d).take 5)) := by
  have hfirst : Inspects r d cache _ _ := checkNonTriggering_inspects v isolated dialect
  have h := Inspects.cons hfirst.run
    (.cons (checkTriggering_inspects v isolated dialect).run
      (.cons (checkEmbedded_inspects v isolated dialect .commentContext d.commentOut
          (if v.silentInComment then 0 else 1)).run
        (.cons (checkEmbedded_inspects v isolated dialect .literalContext d.textLiteral
            (if v.silentInLiteral then 0 else 1)).run
          (.cons (checkEmbedded_inspects v isolated dialect .disableDirective
              (d.disableDirective v.identifier ++ ·) 0).run (.nil run)))))
  simp only [List.append_nil, ← List.append_assoc] at h
  exact h

/-- What the checks of corrections raise, the rule raises when it corrects one of the texts. -/
theorem raised_of_correcting {f : Fault} (isolated : c.Isolates r)
    (dialect : r.kind.dialect.name = d.name)
    (h : (gather run ((v.checks c d).drop 5) bench).1 = .error f) :
    (∀ fault path, f ≠ .store fault path) ∧
      ∃ desk : Desk, desk.file.contents ∈ v.corrected d ∧ desk.file.dialect = d ∧
        (r.correct desk).1 = .error f := by
  obtain ⟨check, hcheck, now, hraised⟩ := raised_of_gather h
  have hchecks : (v.checks c d).drop 5 =
      [v.checkCorrections c d, v.checkStability c d, v.checkDisabledCorrections c d] := rfl
  rw [hchecks] at hcheck
  simp only [List.mem_cons, List.not_mem_nil, or_false] at hcheck
  rcases hcheck with rfl | rfl | rfl
  · obtain ⟨hstore, desk, hmem, hdesk⟩ := raised_of_gather_verifyCorrection
      (α := CorrectionExample) isolated dialect hraised
    exact ⟨hstore, desk, List.mem_append_left _ (List.mem_append_left _ hmem), hdesk⟩
  · obtain ⟨hstore, desk, hmem, hdesk⟩ :=
      raised_of_gather_verifyCorrection isolated dialect hraised
    exact ⟨hstore, desk, List.mem_append_left _ (List.mem_append_right _ hmem), hdesk⟩
  · obtain ⟨hstore, desk, hmem, hdesk⟩ := raised_of_gather_verifyCorrection
      (α := CorrectionExample) isolated dialect hraised
    exact ⟨hstore, desk, List.mem_append_right _ hmem, hdesk⟩

/-- A verification raises what diagnosing the first text raises that cannot be diagnosed, runs all
checks and reports what each found, or raises what the rule raised when it corrected a text. -/
theorem verify_reports_or_raises (distinct : v.registry.Distinct)
    (constructed : v.construct = .ok (c, d)) :
    ∃ r, c.Isolates r ∧ r.kind.dialect = d ∧
      let fault? (text : Text) :=
        Fault.of? (r.diagnose { contents := text, dialect := d } bench.cache.clear).1
      (∀ f, (v.inspected d).findSome? fault? = some f →
        ∃ after, v.verify bench = (.error f, after)) ∧
      ((v.inspected d).findSome? fault? = none →
        (∃ findings after, Ran (v.checks c d) bench findings after ∧
          v.verify bench = (.ok ⟨v.identifier, findings.flatten⟩, after)) ∨
        ∃ f after, v.verify bench = (.error f, after) ∧ (∀ fault path, f ≠ .store fault path) ∧
          ∃ desk : Desk, desk.file.contents ∈ v.corrected d ∧ desk.file.dialect = d ∧
            (r.correct desk).1 = .error f) := by
  obtain ⟨r, isolated, hdialect⟩ := isolates_of_construct distinct constructed
  have dialect : r.kind.dialect.name = d.name := congrArg Dialect.name hdialect
  refine ⟨r, isolated, hdialect, ?_⟩
  intro fault?
  have hfault : (fun text => Fault.of? (leftOn r d bench.cache text)) = fault? := by
    funext text
    simp only [leftOn, fault?]
    cases (r.diagnose { contents := text, dialect := d } bench.cache.clear).1 with
    | error f => rfl
    | ok found => rfl
  have hdiagnosing := (diagnosing_inspects (v := v) isolated dialect bench rfl).1
  rw [hfault] at hdiagnosing
  have hverify := verify_of_construct constructed bench
  have happend := of?_gather_append run ((v.checks c d).take 5) ((v.checks c d).drop 5) bench
  rw [List.take_append_drop, hdiagnosing] at happend
  generalize hgather : gather run (v.checks c d) bench = outcome at hverify happend
  obtain ⟨result, after⟩ := outcome
  constructor
  · intro f hf
    rw [hf] at happend
    cases result with
    | ok failures => cases happend
    | error g =>
      cases Option.some.inj happend
      exact ⟨after, hverify⟩
  · intro hnone
    rw [hnone, Option.none_or] at happend
    cases result with
    | ok failures =>
      obtain ⟨findings, hran, rfl⟩ := ran_of_gather (congrArg Prod.fst hgather)
      rw [hgather] at hran
      exact Or.inl ⟨findings, after, hran, hverify⟩
    | error g =>
      exact Or.inr ⟨g, after, hverify,
        raised_of_correcting isolated dialect (Fault.of?_eq_some_iff.mp happend.symm)⟩

end Verify

end Raising

/-- A rule that looks for a word, proposes the edits given, and is checked on that word. -/
def wordKind (edits : Option (List RelativeEdit)) : RuleKind :=
  LiteralRule.kind
    { description :=
        { identifier := "word".toList
          name := "Word".toList
          summary := "Reports a word.".toList
          nonTriggering := ["no\n".toList]
          triggering := ["ok\n".toList]
          corrections := [⟨"ok\n".toList, "no\n".toList⟩] }
      needles := ["ok".toList]
      edits }
    "word".toList "WordRule".toList

open scoped Comparison

theorem verify_reports_or_raises_word :
    let v := ofKind (wordKind none) ⟨["tmp".toList]⟩
    let c : Configuration :=
      { onlyRules := some ["word".toList]
        configured := [{ kind := wordKind none, settings := {} }]
        registry := { kinds := [wordKind none] } }
    v.registry.Distinct ∧ v.construct = .ok (c, .python) ∧
      ∃ findings after, Ran (v.checks c .python) {} findings after ∧
        v.verify {} = (.ok ⟨v.identifier, findings.flatten⟩, after) := by
  intro v c
  have distinct : v.registry.Distinct := List.nodup_singleton _
  have constructed : v.construct = .ok (c, .python) := rfl
  refine ⟨distinct, constructed, ?_⟩
  obtain ⟨r, isolated, -, -, hverify⟩ :=
    @verify_reports_or_raises _ v c .python {} distinct constructed
  have hr : r = { kind := wordKind none, settings := {} } :=
    (List.cons.inj isolated.2.1).1.symm
  subst hr
  rcases hverify rfl with hreport | ⟨f, _, _, _, desk, _, _, hcorrect⟩
  · exact hreport
  · cases hcorrect

/-- A rule that proposes an edit before the start of the file ends its own verification, and so
does a rule that looks at the syntax tree of a dialect without a grammar. -/
theorem verify_raises_rule_fault :
    let shifted := ofKind (wordKind (some [⟨"no".toList, -3, none⟩])) ⟨["tmp".toList]⟩
    let treeless := ofKind
      { wordKind none with dialect := { Dialect.python with grammar := .absent }, needsTree := true }
      ⟨["tmp".toList]⟩
    let bench : Bench := { store := { entries := [(⟨["tmp".toList]⟩, .directory)] } }
    shifted.construct.toOption.isSome ∧ treeless.construct.toOption.isSome ∧
      (shifted.verify bench).1 = .error (.invalid "TextEdit".toList
        [⟨["offset".toList], .tooSmall⟩]) ∧
      (treeless.verify bench).1 = .error (.noGrammar "python".toList) := by
  decide +kernel

end Conformance

end StyleRules
