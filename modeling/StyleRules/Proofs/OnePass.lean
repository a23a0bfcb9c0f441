import StyleRules.Proofs.Caching
import StyleRules.Proofs.Isolation
import StyleRules.Proofs.RespelledChains
import StyleRules.Proofs.SplicedOperators

namespace StyleRules

/-- The cache answers for texts of a dialect as if it parsed them afresh. -/
def ParseCache.FaithfulTo [Parser] (d : Dialect) (cache : ParseCache) : Prop :=
  ∃ calls, cache.Faithful (· = d) calls

namespace NoneComparison

variable {r : Rule}

theorem correctsPlainly (h : r.kind = .noneComparison) : r.CorrectsPlainly := by
  obtain ⟨kind, settings⟩ := r
  cases h
  exact ⟨_, rfl, rfl, rfl⟩

theorem identifier_eq (h : r.kind = .noneComparison) : r.identifier = description.identifier := by
  rw [Rule.identifier, h]
  rfl

theorem stop_le_of_rewrites {text : Text} {v : SyntaxTree × List SyntaxTree} {e : Edit}
    (h : RewritesAt text v e) : e.stop ≤ text.length := by
  obtain ⟨before, slots, tail, after, htext, -, rfl, -⟩ := h
  rw [htext, List.length_append, List.length_append, Edit.stop]
  exact Nat.le_add_right _ _

/-- The configuration that isolates the rule, with its default options. -/
def alone : Configuration :=
  { onlyRules := some ["none_comparison".toList]
    configured := [{ kind := .noneComparison, settings := {} }]
    registry := .standard }

theorem isolating_alone :
    Configuration.isolating "none_comparison".toList .null = .ok alone := rfl

theorem rulesFor_alone :
    alone.rulesFor .python = .ok [{ kind := .noneComparison, settings := {} }] :=
  Configuration.Isolates.rulesFor ⟨Registry.standard_distinct, rfl, .null, rfl⟩ rfl

section Steps

variable [Parser]

theorem parseAfresh_python {text : Text} {t : SyntaxTree}
    (parsed : Parser.parse .python text = .ok t) : ParseCache.parseAfresh .python text = .ok t := by
  change (Parser.parse .python text).mapError _ = _
  rw [parsed]
  rfl

/-- What the rule sees of a Python file. -/
theorem view_eq (h : r.kind = .noneComparison) {f : SourceFile} {cache : ParseCache}
    (python : f.dialect = .python) (faithful : cache.FaithfulTo .python) {t : SyntaxTree}
    (parsed : Parser.parse .python f.contents = .ok t) :
    (r.view f cache).1 = .ok { file := f, index := .ofText f.contents, tree := t } ∧
      (r.view f cache).2.FaithfulTo .python := by
  obtain ⟨calls, hfaithful⟩ := faithful
  have apart : ParseCache.NamesApart (· = .python) := by
    rintro d e rfl rfl -
    rfl
  obtain ⟨htree, hafter⟩ := (hfaithful.lineIndex f.contents).tree apart rfl f.contents
  have hview : r.view f cache =
      (((cache.lineIndex f.contents).2.tree .python f.contents).1.map fun tree =>
          { file := f, index := (cache.lineIndex f.contents).1, tree },
        ((cache.lineIndex f.contents).2.tree .python f.contents).2) := by
    rw [← python]
    obtain ⟨kind, settings⟩ := r
    cases h
    rfl
  rw [hview, htree, cache.lineIndex_fst, parseAfresh_python parsed]
  exact ⟨rfl, _, hafter⟩

def reportAt (r : Rule) (f : SourceFile) (v : SyntaxTree × List SyntaxTree) : Diagnostic :=
  description.diagnostic r.settings.severity (locateChain f v.1)

theorem diagnose_eq (h : r.kind = .noneComparison) {f : SourceFile} {cache : ParseCache}
    (python : f.dialect = .python) (faithful : cache.FaithfulTo .python) {t : SyntaxTree}
    (parsed : Parser.parse .python f.contents = .ok t) :
    (r.diagnose f cache).1 = .ok ((violations t).map (reportAt r f)) := by
  have hview := (view_eq h python faithful parsed).1
  unfold Rule.diagnose
  dsimp only
  rw [hview]
  obtain ⟨kind, settings⟩ := r
  cases h
  rfl

theorem proposals_eq (h : r.kind = .noneComparison) {f : SourceFile} {cache : ParseCache}
    (python : f.dialect = .python) (faithful : cache.FaithfulTo .python) {t : SyntaxTree}
    (parsed : Parser.parse .python f.contents = .ok t) (lies : ChainsIn f.contents t) :
    ∃ proposed read,
      edits { file := f, index := .ofText f.contents, tree := t } = .ok proposed ∧
        r.proposals f cache = (.ok proposed, read) ∧ read.FaithfulTo .python ∧
        List.Forall₂ (RewritesAt f.contents) (violations t) proposed := by
  obtain ⟨hview, hfaithful⟩ := view_eq h python faithful parsed
  obtain ⟨es, hes, hforall⟩ := edits_of_holdsOperators lies.holds
  have hproposals : r.proposals f cache = ((r.view f cache).1.bind edits, (r.view f cache).2) := by
    obtain ⟨kind, settings⟩ := r
    cases h
    rfl
  rw [hview] at hproposals
  exact ⟨es, _, hes, hproposals.trans (Prod.ext hes rfl), hfaithful, hforall⟩

/-- The corrections that the rule makes in a file. -/
theorem correct_spliced (h : r.kind = .noneComparison) {desk : Desk}
    (python : desk.file.dialect = .python) (faithful : desk.cache.FaithfulTo .python)
    (writable : desk.Writable) {t : SyntaxTree}
    (parsed : Parser.parse .python desk.file.contents = .ok t)
    (lies : ChainsIn desk.file.contents t) :
    ∃ proposed after,
      edits { file := desk.file, index := .ofText desk.file.contents, tree := t } =
          .ok proposed ∧
        List.Forall₂ (RewritesAt desk.file.contents) (violations t) proposed ∧
        r.correct desk = (.ok ((r.accepted desk.file proposed).map fun e =>
          r.correctionAt (desk.file.locate e.offset)), after) ∧
        after.file = { desk.file with
          contents := Edit.splice desk.file.contents (r.accepted desk.file proposed) } ∧
        after.cache.FaithfulTo .python := by
  obtain ⟨proposed, read, hedits, hproposals, ⟨calls, hread⟩, hforall⟩ :=
    proposals_eq h python faithful parsed lies
  have hcorrect := Rule.correct_of_proposals (correctsPlainly h) hproposals rfl
  have hkept : (read.lineIndex desk.file.contents).2.FaithfulTo .python :=
    ⟨calls, hread.lineIndex _⟩
  have hinside : ∀ e ∈ proposed, e.stop ≤ desk.file.contents.length := by
    intro e he
    obtain ⟨v, -, hve⟩ := exists_of_forall₂ hforall he
    exact stop_le_of_rewrites hve
  rw [Rule.applyAll_accepted r hinside] at hcorrect
  refine ⟨proposed, ?_⟩
  by_cases hnone : r.accepted desk.file proposed = []
  · rw [if_pos hnone] at hcorrect
    rw [hnone]
    refine ⟨_, hedits, hforall, hcorrect, ?_, hkept⟩
    exact congrArg (fun contents => { desk.file with contents })
      (Edit.spliceFrom_nil 0 desk.file.contents).symm
  · obtain ⟨written, hwritten⟩ :=
      writable (Edit.splice desk.file.contents (r.accepted desk.file proposed))
    rw [if_neg hnone, hwritten] at hcorrect
    exact ⟨_, hedits, hforall, hcorrect, (Desk.replaceContents_file hwritten).trans rfl, hkept⟩

/-- Where no chain is flagged the rule corrects nothing. -/
theorem correct_of_flagged_eq_nil (h : r.kind = .noneComparison) {desk : Desk}
    (python : desk.file.dialect = .python) (faithful : desk.cache.FaithfulTo .python)
    {t : SyntaxTree} (parsed : Parser.parse .python desk.file.contents = .ok t)
    (lies : ChainsIn desk.file.contents t) (hnone : flagged desk.file t = []) :
    ∃ cache, r.correct desk = (.ok [], { desk with cache }) := by
  obtain ⟨proposed, read, -, hproposals, -, hforall⟩ :=
    proposals_eq h python faithful parsed lies
  have hcorrect := Rule.correct_of_proposals (correctsPlainly h) hproposals rfl
  obtain ⟨chosen, hsub, hchosen⟩ := exists_flagged (correctsPlainly h) (identifier_eq h) hforall
  rw [hnone, List.subperm_nil] at hsub
  rw [hsub, List.forall₂_nil_left_iff] at hchosen
  rw [if_pos hchosen] at hcorrect
  exact ⟨_, hcorrect⟩

/-- Where the rule runs alone it reports the chains that are flagged. -/
theorem diagnose_flagged {c : Configuration} (hrules : c.rulesFor .python = .ok [r])
    (h : r.kind = .noneComparison) {f : SourceFile} (python : f.dialect = .python)
    {cache : ParseCache} (faithful : cache.FaithfulTo .python) {t : SyntaxTree}
    (parsed : Parser.parse .python f.contents = .ok t) :
    (c.diagnose f cache).1 = .ok ((flagged f t).map (reportAt r f)) := by
  rw [← python] at hrules
  rw [Configuration.diagnose_of_rulesFor hrules, diagnose_eq h python faithful parsed, Except.map,
    List.filter_map, identifier_eq h]
  rfl

theorem correct_eq_rule {c : Configuration} (hrules : c.rulesFor .python = .ok [r])
    {desk : Desk} (python : desk.file.dialect = .python) : c.correct desk = r.correct desk :=
  Configuration.correct_of_rulesFor (python ▸ hrules)

theorem faithfulTo_empty : ParseCache.FaithfulTo .python {} :=
  ⟨[], ParseCache.faithful_empty (· = .python)⟩

/-- One pass over a well-formed Python text whose equality operators have spaces leaves no more than
was reported and not corrected, and nothing where the comparisons reported stand apart. -/
theorem one_pass_leaves_overlapping {WellFormed : Text → Prop} (grammar : ReadsChains WellFormed)
    {options : Value} {c : Configuration}
    (isolated : Configuration.isolating "none_comparison".toList options = .ok c) {desk : Desk}
    (python : desk.file.dialect = .python) (faithful : desk.cache.FaithfulTo .python)
    (writable : desk.Writable) (wellFormed : WellFormed desk.file.contents)
    (spaced : ∀ t, Parser.parse .python desk.file.contents = .ok t →
      SpacesOperators desk.file.contents t) :
    ∃ (t : SyntaxTree) (reported left : List Diagnostic) (made : List Correction) (after : Desk),
      Parser.parse .python desk.file.contents = .ok t ∧
      (∀ cache : ParseCache, cache.FaithfulTo .python →
        (c.diagnose desk.file cache).1 = .ok reported) ∧
      reported.map (·.location) =
        (flagged desk.file t).map (fun v => locateChain desk.file v.1) ∧
      c.correct desk = (.ok made, after) ∧ after.cache.FaithfulTo .python ∧
      WellFormed after.file.contents ∧
      (∀ cache : ParseCache, cache.FaithfulTo .python →
        (c.diagnose after.file cache).1 = .ok left) ∧
      (made.map (·.location)).Subperm (reported.map (·.location)) ∧
      left.length + made.length ≤ reported.length ∧ (made = [] → reported = []) ∧
      ((flagged desk.file t).Pairwise Apart → left = [] ∧
        ∀ again : Desk, again.file = after.file → again.cache.FaithfulTo .python →
          (c.correct again).1 = .ok [] ∧ (c.correct again).2.file = after.file ∧
            (c.correct again).2.store = again.store) := by
  obtain ⟨k, r, hk, hr, hisolates⟩ :=
    Configuration.isolates_of_isolating Registry.standard_distinct isolated
  have hkind : r.kind = .noneComparison := by
    rw [RuleKind.kind_of_configure hr]
    exact Except.ok.inj (hk.symm.trans rfl)
  have hrules : c.rulesFor .python = .ok [r] := hisolates.rulesFor (by rw [hkind]; rfl)
  obtain ⟨t, parsed, lies⟩ := grammar.reads wellFormed
  obtain ⟨proposed, after, -, hforall, hcorrect, hfile, hafter⟩ :=
    correct_spliced hkind python faithful writable parsed lies
  have hpython : after.file.dialect = .python := by
    rw [hfile]
    exact python
  obtain ⟨t', hwell, parsed', hcount, hclears⟩ := flagged_splice grammar (correctsPlainly hkind)
    (identifier_eq hkind) python wellFormed parsed lies (spaced t parsed) hforall
  rw [← hfile] at hwell parsed' hcount hclears
  rw [← correct_eq_rule hrules python] at hcorrect
  refine ⟨t, _, _, _, after, parsed, fun _ faithful =>
    diagnose_flagged hrules hkind python faithful parsed, ?_, hcorrect, hafter, hwell,
    fun _ faithful => diagnose_flagged hrules hkind hpython faithful parsed', ?_, ?_, ?_, ?_⟩
  · rw [List.map_map]
    rfl
  · obtain ⟨chosen, ⟨ordered, hperm, hsub⟩, hchosen⟩ :=
      exists_flagged (correctsPlainly hkind) (identifier_eq hkind) hforall
    rw [List.map_map, List.map_map]
    have hlocations := map_locate_of_rewritesAt hchosen
    exact hlocations ▸ ⟨ordered.map fun v => locateChain desk.file v.1, hperm.map _, hsub.map _⟩
  · rw [List.length_map, List.length_map, List.length_map]
    exact hcount
  · intro hmade
    rw [List.map_eq_nil_iff] at hmade ⊢
    refine List.eq_nil_iff_forall_not_mem.mpr fun v hv => ?_
    obtain ⟨-, a, -, ha, -⟩ :=
      exists_accepted (correctsPlainly hkind) (identifier_eq hkind) lies hforall hv
    rw [hmade] at ha
    cases ha
  · intro happart
    have hnone := hclears happart
    refine ⟨by rw [hnone]; rfl, fun again hagain hcache => ?_⟩
    have hdialect : again.file.dialect = .python := by rw [hagain]; exact hpython
    obtain ⟨cache, hc⟩ := correct_of_flagged_eq_nil hkind hdialect hcache
      (by rw [hagain]; exact parsed') (by rw [hagain]; exact grammar.chainsIn hwell parsed')
      (by rw [hagain]; exact hnone)
    rw [correct_eq_rule hrules hdialect, hc]
    exact ⟨rfl, hagain, rfl⟩

end Steps

open scoped Comparison

theorem one_pass_leaves_nothing_apart :
    let text := "a == None or b != None\n".toList
      ++ "# lintcheck:disable:next none_comparison\nc == None\n".toList
    let desk : Desk := { file := { contents := text } }
    Configuration.isolating "none_comparison".toList .null = .ok alone ∧
      desk.file.dialect = .python ∧ desk.cache.FaithfulTo .python ∧ desk.Writable ∧
      Token.Followed (Token.ofText text) ∧ SpacesOperators text (.ofText text) ∧
      (flagged desk.file (.ofText text)).Pairwise Apart ∧
      (flagged desk.file (.ofText text)).length = 2 ∧
      ∃ made after, alone.correct desk = (.ok made, after) ∧ made ≠ [] ∧
        ∀ cache : ParseCache, cache.FaithfulTo .python →
          (alone.diagnose after.file cache).1 = .ok [] := by
  intro text desk
  have writable : desk.Writable := Desk.writable_of_path_eq_none rfl
  have followed : Token.Followed (Token.ofText text) := by decide +kernel
  have spaced : SpacesOperators text (.ofText text) := by decide +kernel
  have happart : (flagged desk.file (.ofText text)).Pairwise Apart := by
    unfold flagged violations SyntaxTree.nodes
    simp only [SyntaxTree.visit_eq_preorderAll]
    decide +kernel
  have hlength : (flagged desk.file (.ofText text)).length = 2 := by
    unfold flagged violations SyntaxTree.nodes
    simp only [SyntaxTree.visit_eq_preorderAll]
    decide +kernel
  obtain ⟨t, reported, left, made, after, parsed, -, hreported, hcorrect, -, -, hleft, -, -, hmade,
      hclear⟩ :=
    one_pass_leaves_overlapping readsChains isolating_alone rfl faithfulTo_empty writable followed
      (by
        intro t parsed
        cases Except.ok.inj parsed
        exact spaced)
  cases Except.ok.inj parsed
  refine ⟨isolating_alone, rfl, faithfulTo_empty, writable, followed, spaced, happart, hlength, made,
    after, hcorrect, ?_, ?_⟩
  · intro hnone
    rw [hmade hnone] at hreported
    have := congrArg List.length hreported
    rw [List.length_map, List.length_map, hlength] at this
    cases this
  · obtain ⟨rfl, -⟩ := hclear happart
    exact hleft

/-- A comparison that stands in an operand of another one is corrected first, and the other one is
left for a second pass. -/
theorem nested_comparison_left :
    let desk : Desk := { file := { contents := "(a == None) == None\n".toList } }
    Configuration.isolating "none_comparison".toList .null = .ok alone ∧
      desk.file.dialect = .python ∧ Token.Followed (Token.ofText desk.file.contents) ∧
      SpacesOperators desk.file.contents (.ofText desk.file.contents) ∧
      ∃ made after left more, alone.correct desk = (.ok made, after) ∧
        after.file.contents = "(a is None) == None\n".toList ∧
        (alone.diagnose after.file after.cache).1 = .ok [left] ∧
        (alone.correct after).1 = .ok [more] := by
  intro desk
  obtain ⟨r, hr⟩ : ∃ r : Rule, r = { kind := .noneComparison, settings := {} } := ⟨_, rfl⟩
  have hrules : alone.rulesFor .python = .ok [r] := hr ▸ rulesFor_alone
  have hkind : r.kind = .noneComparison := by rw [hr]
  have followed : Token.Followed (Token.ofText desk.file.contents) := by decide +kernel
  have spaced : SpacesOperators desk.file.contents (.ofText desk.file.contents) := by
    decide +kernel
  obtain ⟨proposed, after, hedits, -, hcorrect, hfile, hfaithful⟩ :=
    correct_spliced hkind rfl faithfulTo_empty (Desk.writable_of_path_eq_none rfl)
      (show Parser.parse .python desk.file.contents = .ok (.ofText desk.file.contents) from rfl)
      (chainsIn_ofText followed)
  have hproposed : proposed =
      [⟨0, 19, "(a == None) is None".toList⟩, ⟨1, 9, "a is None".toList⟩] := by
    refine Except.ok.inj (hedits.symm.trans ?_)
    unfold edits violations SyntaxTree.nodes
    simp only [SyntaxTree.visit_eq_preorderAll]
    decide +kernel
  have hafter : after.file = { contents := "(a is None) == None\n".toList } := by
    have hspliced : Edit.splice desk.file.contents (r.accepted desk.file proposed) =
        "(a is None) == None\n".toList := by
      rw [hproposed, hr]
      decide +kernel
    rw [hfile, hspliced]
  have hpython : after.file.dialect = .python := by rw [hafter]
  have hparsed : Parser.parse .python after.file.contents = .ok (.ofText after.file.contents) := rfl
  have hfollowed : Token.Followed (Token.ofText after.file.contents) := by
    rw [hafter]
    decide +kernel
  have hleft : (flagged after.file (.ofText after.file.contents)).length = 1 := by
    rw [hafter]
    unfold flagged violations SyntaxTree.nodes
    simp only [SyntaxTree.visit_eq_preorderAll]
    decide +kernel
  obtain ⟨v, hv⟩ := List.length_eq_one_iff.mp hleft
  have hdiagnose := diagnose_flagged hrules hkind hpython hfaithful hparsed
  rw [hv] at hdiagnose
  obtain ⟨again, last, hproposals, -, hlast, -⟩ :=
    correct_spliced hkind hpython hfaithful (Desk.writable_of_path_eq_none (by rw [hafter])) hparsed
      (chainsIn_ofText hfollowed)
  have hagain : again = [⟨0, 19, "(a is None) is None".toList⟩] := by
    refine Except.ok.inj (hproposals.symm.trans ?_)
    rw [hafter]
    unfold edits violations SyntaxTree.nodes
    simp only [SyntaxTree.visit_eq_preorderAll]
    decide +kernel
  have hmade : r.accepted after.file again = [⟨0, 19, "(a is None) is None".toList⟩] := by
    rw [hagain, hafter, hr]
    decide +kernel
  rw [hmade] at hlast
  rw [← correct_eq_rule hrules rfl] at hcorrect
  rw [← correct_eq_rule hrules hpython] at hlast
  exact ⟨isolating_alone, rfl, followed, spaced, _, after, _, _, hcorrect, by rw [hafter],
    hdiagnose, congrArg Prod.fst hlast⟩

end NoneComparison

end StyleRules
