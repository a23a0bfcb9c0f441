import StyleRules.Proofs.Coverage
import StyleRules.Proofs.Isolation
import StyleRules.Proofs.Violations
import Mathlib.Data.List.Induction
import StyleRules.SyntaxTree.Comparison

namespace StyleRules

namespace WeakDelegate

theorem declarationsFrom_ascending (afterWord : Bool) (pending offset : Nat) (text : Text) :
    (declarationsFrom afterWord pending offset text).Pairwise fun a b => a.1 < b.1 := by
  fun_induction declarationsFrom afterWord pending offset text with
  | case1 => exact List.Pairwise.nil
  | case2 _ offset c rest k ih => exact ih
  | case3 _ offset c rest name length hd ih =>
    refine List.pairwise_cons.mpr ⟨?_, ih⟩
    intro d hd
    have := declarationsFrom_offset_le hd
    dsimp only
    omega
  | case4 _ offset c rest hd ih => exact ih

theorem violations_ascending (text : Text) : (violations text).Pairwise (· < ·) := by
  unfold violations violationsIn
  apply List.Pairwise.filterMap _ _ (declarationsFrom_ascending false 0 0 _)
  intro a b hab offset ho offset' ho'
  dsimp only at ho ho'
  split at ho
  · split at ho'
    · cases Option.some.inj ho
      cases Option.some.inj ho'
      exact hab
    · cases ho'
  · cases ho

theorem exists_declared_of_violation {text : Text} {offset : Nat} (h : offset ∈ violations text) :
    ∃ name, (offset, name) ∈ declarations (mask text .swift) := by
  obtain ⟨name, hd, -⟩ := mem_violationsIn.mp h
  exact ⟨name, hd⟩

theorem violation_le {text : Text} {offset : Nat} (h : offset ∈ violations text) :
    offset ≤ text.length := by
  obtain ⟨name, hd⟩ := exists_declared_of_violation h
  have hlen := (cut_of_declared hd).2
  rw [List.length_take] at hlen
  omega

/-- The edit that makes the delegate declared at an offset weak. -/
def weakening (offset : Nat) : Edit := { offset, length := 0, replacement := "weak ".toList }

theorem edits_eq (text : Text) : edits text = (violations text).map weakening := rfl

theorem apply_weakening (text : Text) (offset : Nat) :
    (weakening offset).apply text = text.take offset ++ ("weak ".toList ++ text.drop offset) := by
  show text.take offset ++ "weak ".toList ++ text.drop (offset + 0) = _
  rw [List.append_assoc, Nat.add_zero]

/-- The offsets at which the rule is violated in a file and not disabled. -/
def flagged (f : SourceFile) : List Nat :=
  (violations f.contents).filter fun offset =>
    f.isEnabled RuleKind.weakDelegate.identifier (f.locate offset)

theorem flagged_ascending (f : SourceFile) : (flagged f).Pairwise (· < ·) :=
  (violations_ascending f.contents).sublist List.filter_sublist

theorem declared_of_flagged {f : SourceFile} {offset : Nat} (h : offset ∈ flagged f) :
    ∃ name, (offset, name) ∈ declarations (mask f.contents .swift) :=
  exists_declared_of_violation (List.mem_filter.mp h).1

theorem flagged_le {f : SourceFile} {offset : Nat} (h : offset ∈ flagged f) :
    offset ≤ f.contents.length :=
  violation_le (List.mem_filter.mp h).1

/-- A file in which the delegate declared at an offset is made weak. -/
def weakenedAt (f : SourceFile) (offset : Nat) : SourceFile :=
  { f with contents := (weakening offset).apply f.contents }

/-- Making one declaration weak leaves no violation there and adds none elsewhere. -/
theorem flagged_weakenedAt {f : SourceFile} {name : Text} {offset other : Nat}
    (hswift : f.dialect = .swift) (hd : (offset, name) ∈ declarations (mask f.contents .swift))
    (h : other ∈ flagged (weakenedAt f offset)) :
    ∃ old ∈ flagged f, old ≠ offset ∧ other = moved offset old := by
  obtain ⟨hcut, hlen⟩ := cut_of_declared hd
  obtain ⟨hmask, hlength⟩ := mask_of_declared hd
  obtain ⟨hviolation, henabled⟩ := List.mem_filter.mp h
  simp only [weakenedAt, apply_weakening] at hviolation henabled
  have hcontents : f.contents = f.contents.take offset ++ f.contents.drop offset :=
    (List.take_append_drop offset f.contents).symm
  unfold violations at hviolation
  rw [hcut.mask_weak true] at hviolation
  obtain ⟨old, hold, hne, rfl⟩ := mem_violationsIn_weakened hcut.boundary (hcut.startsWord true)
    (by rw [hlength, ← hmask]; exact hd) hviolation
  rw [← hmask] at hold
  rw [hlength] at hne henabled ⊢
  refine ⟨old, List.mem_filter.mpr ⟨hold, ?_⟩, hne, rfl⟩
  refine isEnabled_of_weakened hcut hswift hcontents (violation_le hold) ?_
  rw [hlen]
  exact henabled

/-- What is declared before a declaration stays declared when that one is made weak. -/
theorem declared_weakenedAt {f : SourceFile} {name : Text} {offset : Nat} {d : Nat × Text}
    (hd : (offset, name) ∈ declarations (mask f.contents .swift))
    (h : d ∈ declarations (mask f.contents .swift)) (hlt : d.1 < offset) :
    d ∈ declarations (mask (weakenedAt f offset).contents .swift) := by
  obtain ⟨hcut, -⟩ := cut_of_declared hd
  obtain ⟨hmask, hlength⟩ := mask_of_declared hd
  simp only [weakenedAt, apply_weakening]
  rw [hcut.mask_weak true]
  rw [hmask] at hd h
  exact declared_of_weakened hcut.boundary (hcut.startsWord true) (by rw [hlength]; exact hd) h
    (by rw [hlength]; exact hlt)

/-- Once every flagged declaration is made weak, from the last to the first, none is flagged. -/
theorem flagged_applyAll {f : SourceFile} (offsets : List Nat) (hswift : f.dialect = .swift)
    (hascending : offsets.Pairwise (· < ·))
    (hdeclared : ∀ o ∈ offsets, ∃ name, (o, name) ∈ declarations (mask f.contents .swift))
    (hall : ∀ o ∈ flagged f, o ∈ offsets) :
    flagged { f with
      contents := Edit.applyAll f.contents (offsets.map weakening).reverse } = [] := by
  -- The last declaration is made weak first: those before it keep their offsets.
  induction offsets using List.reverseRecOn generalizing f with
  | nil => exact List.eq_nil_iff_forall_not_mem.mpr fun o ho => List.not_mem_nil (hall o ho)
  | append_singleton offsets last ih =>
    obtain ⟨hearly, -, hlt⟩ := List.pairwise_append.mp hascending
    have hbefore : ∀ o ∈ offsets, o < last := fun o ho => hlt o ho last (by simp)
    obtain ⟨name, hlast⟩ := hdeclared last (by simp)
    rw [List.map_append, List.reverse_append]
    refine @ih (weakenedAt f last) hswift hearly ?_ ?_
    · intro o ho
      obtain ⟨name', ho'⟩ := hdeclared o (List.mem_append_left _ ho)
      exact ⟨name', declared_weakenedAt hlast ho' (hbefore o ho)⟩
    · intro other ho
      obtain ⟨old, hold, hne, rfl⟩ := flagged_weakenedAt hswift hlast ho
      rcases List.mem_append.mp (hall old hold) with hm | hm
      · rw [moved, if_pos (hbefore old hm)]
        exact hm
      · exact absurd (List.mem_singleton.mp hm) hne

section Rule

variable {r : Rule}

theorem correctsPlainly (h : r.kind = .weakDelegate) : r.CorrectsPlainly := by
  obtain ⟨kind, settings⟩ := r
  cases h
  exact ⟨_, rfl, rfl, rfl⟩

theorem identifier_eq (h : r.kind = .weakDelegate) :
    r.identifier = RuleKind.weakDelegate.identifier := by rw [Rule.identifier, h]

theorem proposals_eq [Parser] (h : r.kind = .weakDelegate) (f : SourceFile) (cache : ParseCache) :
    (r.proposals f cache).1 = .ok (edits f.contents) := by
  obtain ⟨kind, settings⟩ := r
  cases h
  rfl

def reportAt (r : Rule) (f : SourceFile) (offset : Nat) : Diagnostic :=
  description.diagnostic r.settings.severity (f.locate offset)

theorem diagnose_eq [Parser] (h : r.kind = .weakDelegate) (f : SourceFile) (cache : ParseCache) :
    (r.diagnose f cache).1 = .ok ((violations f.contents).map (reportAt r f)) := by
  have hindex := cache.lineIndex_fst f.contents
  obtain ⟨kind, settings⟩ := r
  cases h
  unfold Rule.diagnose Rule.view
  cases hl : cache.lineIndex f.contents with
  | mk index next =>
    rw [hl] at hindex
    cases (show index = .ofText f.contents from hindex)
    rfl

theorem accepted_eq (h : r.kind = .weakDelegate) (f : SourceFile) :
    r.accepted f (edits f.contents) = (flagged f).map weakening := by
  have hascending : (edits f.contents).Pairwise fun a b => a.offset < b.offset :=
    List.pairwise_map.mpr (violations_ascending f.contents)
  have hinsertions : ∀ e ∈ edits f.contents, e.length = 0 := by
    intro e he
    obtain ⟨offset, -, rfl⟩ := List.mem_map.mp he
    rfl
  rw [Rule.accepted_of_insertions (correctsPlainly h) hascending hinsertions, edits_eq,
    List.filter_map, identifier_eq h]
  rfl

/-- The corrections that the rule makes in a file. -/
theorem correct_flagged [Parser] (h : r.kind = .weakDelegate) {desk : Desk}
    (writable : desk.Writable) :
    ∃ after, r.correct desk =
        (.ok ((flagged desk.file).map fun o => r.correctionAt (desk.file.locate o)), after) ∧
      after.file = { desk.file with
        contents := Edit.splice desk.file.contents ((flagged desk.file).map weakening) } := by
  obtain ⟨cache, hc⟩ := Rule.correct_of_proposed (correctsPlainly h)
    (proposals_eq h desk.file desk.cache)
  have hinside : ∀ e ∈ edits desk.file.contents, e.stop ≤ desk.file.contents.length := by
    intro e he
    obtain ⟨offset, ho, rfl⟩ := List.mem_map.mp he
    exact violation_le ho
  rw [Rule.applyAll_accepted r hinside, accepted_eq h] at hc
  by_cases hn : flagged desk.file = []
  · rw [hn, if_pos List.map_nil] at hc
    refine ⟨{ desk with cache }, ?_, ?_⟩
    · rw [hc, hn]
      rfl
    · rw [hn]
      exact congrArg (fun contents => { desk.file with contents })
        (Edit.spliceFrom_nil 0 desk.file.contents).symm
  · obtain ⟨written, hw⟩ :=
      writable (Edit.splice desk.file.contents ((flagged desk.file).map weakening))
    rw [if_neg (by simp [hn]), hw, List.map_map] at hc
    exact ⟨{ written with cache }, hc, (Desk.replaceContents_file hw).trans rfl⟩

theorem correct_of_flagged_eq_nil [Parser] (h : r.kind = .weakDelegate) {desk : Desk}
    (hn : flagged desk.file = []) : ∃ cache, r.correct desk = (.ok [], { desk with cache }) := by
  obtain ⟨cache, hc⟩ := Rule.correct_of_proposed (correctsPlainly h)
    (proposals_eq h desk.file desk.cache)
  rw [accepted_eq h, hn, if_pos List.map_nil] at hc
  exact ⟨cache, hc⟩

theorem flagged_splice {f : SourceFile} (hswift : f.dialect = .swift) :
    flagged { f with contents := Edit.splice f.contents ((flagged f).map weakening) } = [] := by
  have hapart : ((flagged f).map weakening).Pairwise fun a b => a.stop ≤ b.offset :=
    List.pairwise_map.mpr ((flagged_ascending f).imp fun h => Nat.le_of_lt h)
  have hinside : ∀ e ∈ (flagged f).map weakening, e.stop ≤ f.contents.length := by
    intro e he
    obtain ⟨offset, ho, rfl⟩ := List.mem_map.mp he
    exact flagged_le ho
  rw [← Edit.applyAll_reverse_eq_splice hapart hinside]
  exact flagged_applyAll (flagged f) hswift (flagged_ascending f) (fun _ => declared_of_flagged)
    fun _ ho => ho

end Rule

/-- Correcting puts "weak " in at exactly the places reported. Afterwards nothing is reported, and
to correct again changes nothing. -/
theorem correct_answers_diagnose [Parser] {options : Value} {c : Configuration}
    (isolated : Configuration.isolating "weak_delegate".toList options = .ok c) {desk : Desk}
    (swift : desk.file.dialect = .swift) (writable : desk.Writable) :
    ∃ (offsets : List Nat) (reported : List Diagnostic) (made : List Correction) (after : Desk),
      offsets.Pairwise (· < ·) ∧ (∀ o ∈ offsets, o ≤ desk.file.contents.length) ∧
      (∀ cache, (c.diagnose desk.file cache).1 = .ok reported) ∧
      reported.map (·.location) = offsets.map desk.file.locate ∧
      c.correct desk = (.ok made, after) ∧ made.map (·.location) = reported.map (·.location) ∧
      after.file = { desk.file with
        contents := Edit.splice desk.file.contents (offsets.map weakening) } ∧
      (∀ cache, (c.diagnose after.file cache).1 = .ok []) ∧
      ∀ again : Desk, again.file = after.file → (c.correct again).1 = .ok [] ∧
        (c.correct again).2.file = after.file ∧ (c.correct again).2.store = again.store := by
  obtain ⟨k, r, hk, hr, hisolates⟩ :=
    Configuration.isolates_of_isolating Registry.standard_distinct isolated
  have hkind : r.kind = .weakDelegate := by
    rw [RuleKind.kind_of_configure hr]
    exact Except.ok.inj (hk.symm.trans rfl)
  have hrules : ∀ d : Dialect, d = .swift → c.rulesFor d = .ok [r] := by
    rintro d rfl
    exact hisolates.rulesFor (by rw [hkind]; rfl)
  have hdiagnose : ∀ (f : SourceFile), f.dialect = .swift → ∀ cache,
      (c.diagnose f cache).1 = .ok ((flagged f).map (reportAt r f)) := by
    intro f hf cache
    rw [Configuration.diagnose_of_rulesFor (hrules _ hf), diagnose_eq hkind, Except.map,
      List.filter_map, identifier_eq hkind]
    rfl
  obtain ⟨after, hcorrect, hfile⟩ := correct_flagged hkind writable
  have hnone : flagged after.file = [] := by
    rw [hfile]
    exact flagged_splice swift
  have hafter : after.file.dialect = .swift := by rw [hfile]; exact swift
  rw [← Configuration.correct_of_rulesFor (hrules _ swift)] at hcorrect
  refine ⟨flagged desk.file, _, _, after, flagged_ascending desk.file, fun o => flagged_le,
    hdiagnose desk.file swift, ?_, hcorrect, ?_, hfile, ?_, ?_⟩
  · rw [List.map_map]
    rfl
  · rw [List.map_map, List.map_map]
    rfl
  · intro cache
    rw [hdiagnose after.file hafter cache, hnone]
    rfl
  · intro again hagain
    obtain ⟨cache, hc⟩ := correct_of_flagged_eq_nil hkind (by rw [hagain]; exact hnone)
    rw [Configuration.correct_of_rulesFor (hrules _ (by rw [hagain]; exact hafter)), hc]
    exact ⟨rfl, hagain, rfl⟩

open scoped Comparison

theorem correct_answers_diagnose_twice :
    let c : Configuration :=
      { onlyRules := some ["weak_delegate".toList]
        configured := [{ kind := .weakDelegate, settings := {} }]
        registry := .standard }
    let text := "class A \x7b var delegate: D?; var oldDelegate: D?\n".toList
      ++ "// lintcheck:disable:next weak_delegate\n var delegate: D? \x7d".toList
    let corrected := "class A \x7b weak var delegate: D?; weak var oldDelegate: D?\n".toList
      ++ "// lintcheck:disable:next weak_delegate\n var delegate: D? \x7d".toList
    let desk : Desk := { file := { contents := text, dialect := .swift } }
    Configuration.isolating "weak_delegate".toList .null = .ok c ∧ desk.file.dialect = .swift ∧
      desk.Writable ∧ (c.correct desk).2.file.contents = corrected ∧
      ∀ cache, (c.diagnose (c.correct desk).2.file cache).1 = .ok [] := by
  intro c text corrected desk
  have isolated : Configuration.isolating "weak_delegate".toList .null = .ok c := rfl
  have writable : desk.Writable := Desk.writable_of_path_eq_none rfl
  obtain ⟨offsets, reported, made, after, -, -, -, -, hcorrect, -, -, hclean, -⟩ :=
    @correct_answers_diagnose _ .null c isolated desk rfl writable
  refine ⟨isolated, rfl, writable, by decide +kernel, ?_⟩
  rw [hcorrect]
  exact hclean

end WeakDelegate

end StyleRules
