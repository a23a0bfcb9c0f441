import StyleRules.Proofs.PathOrder
import StyleRules.SyntaxTree.Comparison

namespace StyleRules

namespace Location

variable {α : Type} {location : α → Location}

/-- Leaving out items and sorting the rest comes to the same in either order. -/
theorem filter_sortOn (p : α → Bool) (items : List α) :
    (sortOn location items).filter p = sortOn location (items.filter p) := by
  apply eq_of_ascending_of_filter_eq
  · exact (sortOn_ascending items).sublist (List.filter_sublist.map location)
  · exact sortOn_ascending _
  · intro l
    rw [List.filter_comm, sortOn_filter, sortOn_filter, List.filter_comm]

end Location

namespace Project

variable {s : Store} {path q : Path} {places paths files : List Path}

instance (s : Store) (path q : Path) : Decidable (LeadsTo s path q) :=
  inferInstanceAs (Decidable (_ ∧ (_ ∧ _ ∨ _ ∧ _ ∧ _ ∧ _)))

/-- Two paths lead to one file. -/
def Overlap (s : Store) (path path' : Path) : Prop :=
  ∃ q, s.isFile q ∧ LeadsTo s path q ∧ LeadsTo s path' q

section Discovering

variable (distinct : s.Distinct)
include distinct

theorem candidates_nodup (h : candidates s path = .ok places) : places.Nodup := by
  unfold candidates at h
  dsimp only at h
  split at h
  next => cases h
  next =>
    cases Except.ok.inj h
    split
    next => exact List.nodup_singleton _
    next => exact List.nodup_nil
  next =>
    cases Except.ok.inj h
    exact (distinct.below path.resolve).filter _

/-- A file is discovered once for every path that leads to it. -/
theorem count_discover (h : discover s paths = .ok files) (q : Path) :
    files.count q = if s.isFile q then paths.countP (LeadsTo s · q) else 0 := by
  induction paths generalizing files with
  | nil =>
    cases Except.ok.inj h
    simp
  | cons path rest ih =>
    obtain ⟨places, more, hplaces, hmore, rfl⟩ := discover_cons_eq_ok_iff.mp h
    have hnodup := (candidates_nodup distinct hplaces).filter s.isFile
    have hmem : q ∈ places.filter s.isFile ↔ s.isFile q ∧ LeadsTo s path q := by
      rw [List.mem_filter, mem_candidates hplaces, and_comm]
    rw [List.count_append, ih hmore, hnodup.count, List.countP_cons]
    by_cases hfile : s.isFile q <;> simp [hmem, hfile, Nat.add_comm]

/-- No file is discovered twice exactly if no two of the paths lead to one file. -/
theorem nodup_discover_iff (h : discover s paths = .ok files) :
    files.Nodup ↔ paths.Pairwise (¬Overlap s · ·) := by
  induction paths generalizing files with
  | nil =>
    cases Except.ok.inj h
    simp
  | cons path rest ih =>
    obtain ⟨places, more, hplaces, hmore, rfl⟩ := discover_cons_eq_ok_iff.mp h
    have hnodup := (candidates_nodup distinct hplaces).filter s.isFile
    have hdisjoint : (places.filter s.isFile).Disjoint more ↔
        ∀ path' ∈ rest, ¬Overlap s path path' := by
      constructor
      · rintro hdisjoint path' hpath' ⟨q, hfile, hq, hq'⟩
        exact hdisjoint (List.mem_filter.mpr ⟨(mem_candidates hplaces).mpr hq, hfile⟩)
          ((mem_discover hmore).mpr ⟨hfile, path', hpath', hq'⟩)
      · intro hapart q hq hq'
        obtain ⟨hplace, hfile⟩ := List.mem_filter.mp hq
        obtain ⟨-, path', hpath', hleads⟩ := (mem_discover hmore).mp hq'
        exact hapart path' hpath' ⟨q, hfile, (mem_candidates hplaces).mp hplace, hleads⟩
    rw [List.nodup_append', List.pairwise_cons, ← ih hmore, ← hdisjoint]
    exact ⟨fun ⟨_, hmore, hapart⟩ => ⟨hapart, hmore⟩, fun ⟨hapart, hmore⟩ => ⟨hnodup, hmore, hapart⟩⟩

end Discovering

section Rounds

variable {α : Type} {location : α → Location} {step : Desk → Except Fault (List α) × Desk}
  {found : List α} {after : Store}

/-- Works on one stored file a number of times, and reads it anew each time. -/
def rounds (step : Desk → Except Fault (List α) × Desk) (n : Nat) (q : Path) (store : Store) :
    Except Fault (List α) × Store :=
  overFiles step (List.replicate n q) store

namespace Separate

variable (h : Separate location step) (tree : s.IsTree) (hfiles : discover s paths = .ok files)
include h tree hfiles

/-- What a run over paths does to a file and finds in it is what comes of as many rounds on this
file alone as paths lead to it. -/
theorem overPaths_rounds (run : overPaths step paths s = (.ok found, after)) (hq : q.Named) :
    ∃ reached, rounds step (files.count q) q s = (.ok (found.filter (liesIn location q)), reached) ∧
      after.entryAt? q = reached.entryAt? q := by
  obtain ⟨files', hfiles', hrun⟩ :=
    (overPaths_eq_ok_iff h.toConfined tree.distinct).mp run
  cases Except.ok.inj (hfiles.symm.trans hfiles')
  have hnamed : ∀ p ∈ files, p.toText = q.toText → p = q :=
    fun p hp => Path.toText_injective (named_of_discover tree hfiles p hp) hq
  obtain ⟨reached, hreached, hagree⟩ := h.alone (.refl q s) hnamed hrun
  rw [List.filter_eq] at hreached
  exact ⟨reached, hreached, hagree.entry.symm⟩

/-- A run over paths succeeds exactly if the rounds on each file alone do. -/
theorem exists_overPaths_iff :
    (∃ found after, overPaths step paths s = (.ok found, after)) ↔
      ∀ q ∈ files, ∃ own reached, rounds step (files.count q) q s = (.ok own, reached) := by
  constructor
  · rintro ⟨found, after, run⟩ q hq
    obtain ⟨reached, hreached, -⟩ :=
      h.overPaths_rounds tree hfiles run (named_of_discover tree hfiles q hq)
    exact ⟨_, reached, hreached⟩
  · intro halone
    obtain ⟨found, after, hrun⟩ : ∃ found after, overFiles step files s = (.ok found, after) := by
      apply h.exists_of_alone
      intro q hq
      rw [List.filter_eq]
      exact halone q hq
    exact ⟨found, after, (overPaths_eq_ok_iff h.toConfined tree.distinct).mpr
      ⟨files, hfiles, hrun⟩⟩

end Separate

end Rounds

section Reports

variable {c : Configuration} {found : List Diagnostic}

theorem mapM_eq_ok_iff_map {α β : Type} {f : α → Except Fault (List β)} {items : List α}
    {results : List (List β)} :
    items.mapM f = .ok results ↔
      ∃ own : α → List β, (∀ a ∈ items, f a = .ok (own a)) ∧ results = items.map own := by
  constructor
  · intro h
    refine ⟨fun a => (f a).toOption.getD [], ?_⟩
    induction items generalizing results with
    | nil =>
      cases Except.ok.inj h
      simp
    | cons a rest ih =>
      obtain ⟨first, more, hfirst, hmore, rfl⟩ := mapM_cons_eq_ok_iff.mp h
      obtain ⟨hrest, rfl⟩ := ih hmore
      have hown : (f a).toOption.getD [] = first := by rw [hfirst]; rfl
      rw [List.map_cons, hown]
      exact ⟨List.forall_mem_cons.mpr ⟨hfirst.trans (congrArg Except.ok hown.symm), hrest⟩, rfl⟩
  · rintro ⟨own, hown, rfl⟩
    induction items with
    | nil => rfl
    | cons a rest ih =>
      obtain ⟨ha, hrest⟩ := List.forall_mem_cons.mp hown
      exact mapM_cons_eq_ok_iff.mpr ⟨own a, rest.map own, ha, ih hrest, rfl⟩

/-- Diagnosing paths brings together what the rules report in each file discovered, as often as it
is discovered. -/
theorem diagnose_eq_ok_iff_reports [Parser] (distinct : s.Distinct)
    (hfiles : discover s paths = .ok files) :
    diagnose c s paths = .ok found ↔
      ∃ own : Path → List Diagnostic, (∀ q ∈ files, reportsOn c s q = .ok (own q)) ∧
        found = Location.sortOn (·.location) (files.flatMap own) := by
  rw [diagnose_eq_ok_iff distinct]
  constructor
  · rintro ⟨files', reports, hfiles', hreports, rfl⟩
    cases Except.ok.inj (hfiles.symm.trans hfiles')
    obtain ⟨own, hown, rfl⟩ := mapM_eq_ok_iff_map.mp hreports
    exact ⟨own, hown, by rw [List.flatMap]⟩
  · rintro ⟨own, hown, rfl⟩
    exact ⟨files, files.map own, hfiles, mapM_eq_ok_iff_map.mpr ⟨own, hown, rfl⟩,
      by rw [List.flatMap]⟩

end Reports

/-- Every file is worked on once for each given path that leads to it, and is corrected in as many
rounds, if nothing but the edits of rules changes what is stored. -/
theorem worked_on_once_per_path [Parser] {c : Configuration} (tree : s.IsTree)
    (there : ∀ path ∈ paths, (s.entryAt? path.resolve).isSome) :
    ∃ files, discover s paths = .ok files ∧
      (∀ q, files.count q = if s.isFile q then paths.countP (LeadsTo s · q) else 0) ∧
      (files.Nodup ↔ paths.Pairwise (¬Overlap s · ·)) ∧
      (∀ found, diagnose c s paths = .ok found ↔
        ∃ own : Path → List Diagnostic, (∀ q ∈ files, reportsOn c s q = .ok (own q)) ∧
          found = Location.sortOn (·.location) (files.flatMap own)) ∧
      (c.SharesCorrection →
        ((∃ made after, correct c s paths = (.ok made, after)) ↔
          ∀ q ∈ files, ∃ own reached, rounds c.correct (files.count q) q s = (.ok own, reached)) ∧
        ∀ made after, correct c s paths = (.ok made, after) → ∀ q, q.Named →
          ∃ own reached, rounds c.correct (files.count q) q s = (.ok own, reached) ∧
            made.filter (liesIn (·.location) q) = Location.sortOn (·.location) own ∧
            after.entryAt? q = reached.entryAt? q) := by
  obtain ⟨files, hfiles⟩ := exists_discover there
  refine ⟨files, hfiles, count_discover tree.distinct hfiles,
    nodup_discover_iff tree.distinct hfiles,
    fun found => diagnose_eq_ok_iff_reports tree.distinct hfiles, fun shares => ?_⟩
  have hseparate := separate_correct shares
  constructor
  · rw [← hseparate.exists_overPaths_iff tree hfiles]
    constructor
    · rintro ⟨made, after, h⟩
      obtain ⟨found, run, -⟩ := correct_eq_ok_iff.mp h
      exact ⟨found, after, run⟩
    · rintro ⟨found, after, run⟩
      exact ⟨_, after, correct_eq_ok_iff.mpr ⟨found, run, rfl⟩⟩
  · intro made after h q hq
    obtain ⟨found, run, rfl⟩ := correct_eq_ok_iff.mp h
    obtain ⟨reached, hreached, hentry⟩ := hseparate.overPaths_rounds tree hfiles run hq
    exact ⟨_, reached, hreached, Location.filter_sortOn _ _, hentry⟩

section Overlaps

open scoped Comparison

/-- One of the modules is given twice, once by its directory. -/
theorem worked_on_once_per_path_overlapping :
    let paths := [folder, outer, inner]
    twoModules.IsTree ∧ (∀ path ∈ paths, (twoModules.entryAt? path.resolve).isSome) ∧
      ({} : Configuration).SharesCorrection ∧
      ∃ files, discover twoModules paths = .ok files ∧ files.count inner = 2 ∧
        files.count outer = 1 ∧ ¬files.Nodup ∧
        ∃ made after own reached, correct {} twoModules paths = (.ok made, after) ∧
          rounds (Configuration.correct {}) 2 inner twoModules = (.ok own, reached) ∧
          made.filter (liesIn (·.location) inner) = Location.sortOn (·.location) own ∧
          after.entryAt? inner = reached.entryAt? inner := by
  intro paths
  have tree : twoModules.IsTree := by decide
  have there : ∀ path ∈ paths, (twoModules.entryAt? path.resolve).isSome := by decide
  have shares : ({} : Configuration).SharesCorrection :=
    Configuration.sharesCorrection_of_standard rfl (by simp)
  obtain ⟨files, hfiles, hcount, -, -, hcorrect⟩ := @worked_on_once_per_path _ _ _ {} tree there
  have hinner : files.count inner = 2 := (hcount inner).trans (by decide)
  have hlength : (correct {} twoModules paths).1.map List.length = .ok 2 := by decide +kernel
  refine ⟨tree, there, shares, files, hfiles, hinner, (hcount outer).trans (by decide), ?_, ?_⟩
  · intro h
    have hone := List.nodup_iff_count_le_one.mp h inner
    omega
  · rcases hmade : correct {} twoModules paths with ⟨f | made, after⟩
    · rw [hmade] at hlength
      cases hlength
    · obtain ⟨own, reached, hrounds, hown⟩ :=
        (hcorrect shares).2 made after hmade inner (by decide)
      rw [hinner] at hrounds
      exact ⟨made, after, own, reached, rfl, hrounds, hown⟩

/-- A module in which a correction uncovers another one. -/
def layered : Store :=
  { entries := [(outer, .file (Text.encode "(a == None) == None\n".toList))] }

def beside : Path := ⟨["d".toList, "y.py".toList]⟩

/-- Two modules in a directory. -/
def sideBySide : Store :=
  { entries :=
      [(folder, .directory), (inner, .file (Text.encode "no\n".toList)),
        (beside, .file (Text.encode "ok\n".toList))] }

/-- A rule whose correction takes the directory of its file away. -/
def sweeping : RuleKind :=
  LiteralRule.kind
    { description :=
        { identifier := "sweeping".toList
          name := "Sweeping".toList
          summary := "Takes the directory of its file away.".toList }
      needles := ["ok".toList]
      edits := some [{ replacement := "no".toList }]
      override := some .loseDirectory }
    "sweeping".toList "SweepingRule".toList

/-- A file that is given twice is corrected in two rounds, which leave another text than one. And
where a rule takes files away, a file may be left out that is discovered once. -/
theorem repeated_path_works_again :
    layered.IsTree ∧ (∀ path ∈ [outer, outer], (layered.entryAt? path.resolve).isSome) ∧
      discover layered [outer, outer] = .ok [outer, outer] ∧
      (diagnose {} layered [outer]).map List.length = .ok 2 ∧
      (diagnose {} layered [outer, outer]).map List.length = .ok 4 ∧
      (correct {} layered [outer]).2.entryAt? outer =
        some (.file (Text.encode "(a is None) == None\n".toList)) ∧
      (correct {} layered [outer, outer]).2.entryAt? outer =
        some (.file (Text.encode "(a is None) is None\n".toList)) ∧
      discover sideBySide [folder] = .ok [inner, beside] ∧
      (correct { registry := { kinds := [sweeping] } } sideBySide [folder]).1 = .ok [] ∧
      (correct { registry := { kinds := [sweeping] } } sideBySide [beside]).1.isOk = false := by
  exact ⟨by decide, by decide, by decide, by decide +kernel, by decide +kernel, by decide +kernel,
    by decide +kernel, by decide, by decide +kernel, by decide +kernel⟩

end Overlaps

end Project

end StyleRules
