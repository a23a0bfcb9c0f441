import StyleRules.Proofs.Isolation
import StyleRules.Proofs.Positions
import StyleRules.Proofs.WrittenDirectives
import StyleRules.SyntaxTree.Comparison

namespace StyleRules

namespace Directive

/-- The line that disables a rule, without its line break. -/
def disablingLine (d : Dialect) (rule : Text) : Text :=
  d.lineComment ++ ' ' :: Dialect.directivePrefix ++ ":disable ".toList ++ rule

theorem disableDirective_eq (d : Dialect) (rule : Text) :
    d.disableDirective rule = disablingLine d rule ++ ['\n'] := rfl

/-- Whatever follows the line that disables a rule, the first directive is that of the line. -/
theorem ofText_disableDirective {d : Dialect} {rule : Text} (text : Text)
    (hopen : d.lineComment ≠ []) (hcomment : ∀ c ∈ d.lineComment, c ≠ '\r' ∧ c ≠ '\n')
    (hne : rule ≠ []) (hword : ∀ c ∈ rule, Text.isWordChar c) :
    ∃ more, ofText (d.disableDirective rule ++ text) d = ⟨1, 1, [rule], .onward⟩ :: more := by
  let w : Wording :=
    { gap := [' ']
      modifier := .onward
      space := [' ']
      first := rule
      more := []
      gap_spaces := List.all_eq_true.mp (by decide)
      space_ne_nil := by decide
      space_spaces := List.all_eq_true.mp (by decide)
      first_identifier := ⟨hne, hword⟩
      more_separated := by simp }
  have hline : d.disableDirective rule ++ text = w.line d ++ '\n' :: text := by
    simp [disableDirective_eq, disablingLine, w, Wording.line, writeRules, Modifier.written]
  obtain ⟨more, hmore⟩ := w.ofText_line hopen (fun c hc => not_or.mpr (hcomment c hc)) text
    (Or.inr rfl)
  exact ⟨ofLines d 2 more, by rw [hline, hmore]; rfl⟩

end Directive

namespace SourceFile

theorem locate_resolved {f : SourceFile} {offset : Nat} (h : offset ≤ f.contents.length) :
    (f.locate offset).isResolved := by
  rw [locate_eq (LineIndex.position?_eq h)]
  rfl

theorem isEnabled_disableDirective {f : SourceFile} {rule text : Text} {l : Location}
    (hopen : f.dialect.lineComment ≠ [])
    (hcomment : ∀ c ∈ f.dialect.lineComment, c ≠ '\r' ∧ c ≠ '\n')
    (hne : rule ≠ []) (hword : ∀ c ∈ rule, Text.isWordChar c)
    (hcontents : f.contents = f.dialect.disableDirective rule ++ text)
    (hresolved : l.isResolved) : f.isEnabled rule l = false := by
  obtain ⟨more, hmore⟩ := Directive.ofText_disableDirective text hopen hcomment hne hword
  simp only [Location.isResolved, Bool.and_eq_true, Option.isSome_iff_exists] at hresolved
  obtain ⟨⟨n, hline⟩, m, hcharacter⟩ := hresolved
  have hn := l.one_le_line n hline
  have hm := l.one_le_character m hcharacter
  have hcovers : Directive.covers ⟨1, 1, [rule], .onward⟩ l = true := by
    simp only [Directive.covers, hline, hcharacter, Option.getD_some, Bool.or_eq_true,
      Bool.and_eq_true, decide_eq_true_eq, beq_iff_eq]
    omega
  simp [isEnabled, directives, hcontents, hmore, Directive.leaveEnabled, Directive.appliesTo,
    hcovers]

end SourceFile

/-- Where a rule is disabled at every place, none of its edits is accepted. -/
theorem Rule.accepted_eq_nil {r : Rule} (plain : r.CorrectsPlainly) {f : SourceFile}
    {edits : List Edit} (inside : ∀ e ∈ edits, e.stop ≤ f.contents.length)
    (disabled : ∀ l : Location, l.isResolved → f.isEnabled r.identifier l = false) :
    r.accepted f edits = [] := by
  apply List.eq_nil_iff_forall_not_mem.mpr
  intro e he
  have henabled := accepted_enabled plain he
  have hstop := accepted_stop_le inside he
  have hoffset := e.offset_le_stop
  rw [disabled _ (SourceFile.locate_resolved (by omega))] at henabled
  cases henabled

/-- A file that starts with the line that disables a rule: at no place is the rule enabled, what
the rule reports is kept only where it names no place, and the rule corrects nothing. -/
theorem SourceFile.disableDirective_disables [Parser] {f : SourceFile} {rule text : Text}
    (hopen : f.dialect.lineComment ≠ [])
    (hcomment : ∀ c ∈ f.dialect.lineComment, c ≠ '\r' ∧ c ≠ '\n')
    (hne : rule ≠ []) (hword : ∀ c ∈ rule, Text.isWordChar c)
    (hcontents : f.contents = f.dialect.disableDirective rule ++ text) :
    (∀ l : Location, l.isResolved → f.isEnabled rule l = false) ∧
      (∀ (c : Configuration) (cache : ParseCache) (before after : List Rule) (r : Rule)
        (reported : List Diagnostic), r.identifier = rule →
        c.rulesFor f.dialect = .ok (before ++ r :: after) →
        (c.diagnose f cache).1 = .ok reported →
        ∃ early kept late, reported = early ++ kept ++ late ∧
          (∃ found cache, (r.diagnose f cache).1 = .ok found ∧
            kept = found.filter fun d => f.isEnabled rule d.location) ∧
          (∃ cache, (Configuration.diagnoseWith f cache before).1 = .ok early) ∧
          (∃ cache, (Configuration.diagnoseWith f cache after).1 = .ok late) ∧
          ∀ d ∈ kept, d.location.isResolved = false) ∧
      ∀ (r : Rule) (desk : Desk) (edits : List Edit), r.identifier = rule →
        r.CorrectsPlainly → desk.file = f →
        (r.proposals desk.file desk.cache).1 = .ok edits →
        (∀ e ∈ edits, e.stop ≤ desk.file.contents.length) →
        (r.correct desk).1 = .ok [] ∧ (r.correct desk).2.file = f ∧
          (r.correct desk).2.store = desk.store := by
  have disabled : ∀ l : Location, l.isResolved → f.isEnabled rule l = false :=
    fun l => isEnabled_disableDirective hopen hcomment hne hword hcontents
  refine ⟨disabled, ?_, ?_⟩
  · rintro c cache before after r reported rfl hrules hreported
    rw [Configuration.diagnose, hrules] at hreported
    obtain ⟨early, found, late, hearly, hfound, hlate, rfl⟩ :=
      Configuration.diagnoseWith_split hreported
    refine ⟨early, _, late, rfl, ⟨found, _, hfound, rfl⟩, ⟨_, hearly⟩,
      ⟨_, hlate⟩, ?_⟩
    intro d hd
    have henabled := List.of_mem_filter hd
    apply Bool.eq_false_iff.mpr
    intro hresolved
    rw [disabled d.location hresolved] at henabled
    cases henabled
  · rintro r desk edits rfl plain rfl hproposed inside
    have hnone := Rule.accepted_eq_nil plain inside disabled
    obtain ⟨cache, hcorrect⟩ := Rule.correct_of_proposed plain hproposed
    rw [if_pos hnone] at hcorrect
    simp [hcorrect]

open scoped Comparison

theorem SourceFile.disableDirective_disables_bracketing :
    let f : SourceFile := { contents := "# lintcheck:disable bracketing\nx = \"ok\n'ok".toList }
    let c : Configuration :=
      { configured := [Rule.bracketing], registry := { kinds := [Rule.bracketing.kind] } }
    let proposed : List Edit :=
      [⟨36, 0, ['<']⟩, ⟨36, 0, ['(']⟩, ⟨36, 2, ['X']⟩, ⟨37, 1, ['y']⟩,
        ⟨40, 0, ['<']⟩, ⟨40, 0, ['(']⟩, ⟨40, 2, ['X']⟩, ⟨41, 1, ['y']⟩]
    f.isEnabled "bracketing".toList (.point none 2 6) = false ∧
      (Rule.bracketing.proposals f {}).1 = .ok proposed ∧
      (Rule.bracketing.correct { file := f }).1 = .ok [] ∧
      (∃ kept : List Diagnostic, (c.diagnose f {}).1 = .ok ([] ++ kept ++ []) ∧
        ∀ d ∈ kept, d.location.isResolved = false) := by
  intro f c proposed
  have hproposed : (Rule.bracketing.proposals f {}).1 = .ok proposed := by decide +kernel
  have hreported : (c.diagnose f {}).1 = .ok [] := by decide +kernel
  obtain ⟨hdisabled, hdiagnose, hcorrect⟩ :=
    @disableDirective_disables _ f "bracketing".toList "x = \"ok\n'ok".toList
      (by decide) (by simp [f, Dialect.python]) (by decide)
      (List.all_eq_true.mp (by decide +kernel)) (by decide +kernel)
  refine ⟨hdisabled _ rfl, hproposed, ?_, ?_⟩
  · exact (hcorrect Rule.bracketing { file := f } proposed rfl ⟨_, rfl, rfl, rfl⟩ rfl hproposed
      (by decide)).1
  · obtain ⟨early, kept, late, heq, _, ⟨_, hearly⟩, ⟨_, hlate⟩, hkept⟩ :=
      hdiagnose c {} [] [] Rule.bracketing [] rfl rfl hreported
    cases Except.ok.inj hearly
    cases Except.ok.inj hlate
    exact ⟨kept, by rw [← heq]; exact hreported, hkept⟩

end StyleRules
