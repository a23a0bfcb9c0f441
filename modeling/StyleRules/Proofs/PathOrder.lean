import StyleRules.Proofs.SharedCache
import StyleRules.SyntaxTree.Comparison

namespace StyleRules

namespace Text

variable {c : Char} {piece : Text}

theorem splitOn_append (h : c ∉ piece) (rest : Text) :
    splitOn c (piece ++ c :: rest) = piece :: splitOn c rest := by
  induction piece with
  | nil => simp [splitOn]
  | cons x piece ih =>
    rw [List.mem_cons, not_or] at h
    obtain ⟨hx, hpiece⟩ := h
    rw [List.cons_append, splitOn, if_neg (Ne.symm hx), ih hpiece]

theorem splitOn_eq_self (h : c ∉ piece) : splitOn c piece = [piece] := by
  induction piece with
  | nil => rfl
  | cons x piece ih =>
    rw [List.mem_cons, not_or] at h
    obtain ⟨hx, hpiece⟩ := h
    rw [splitOn, if_neg (Ne.symm hx), ih hpiece]

/-- Parts that are joined by a character that stands in none of them are found again. -/
theorem splitOn_join {parts : List Text} (hne : parts ≠ []) (h : ∀ part ∈ parts, c ∉ part) :
    splitOn c (join [c] parts) = parts := by
  induction parts with
  | nil => exact absurd rfl hne
  | cons part rest ih =>
    obtain ⟨hpart, hrest⟩ := List.forall_mem_cons.mp h
    cases rest with
    | nil => exact splitOn_eq_self hpart
    | cons next rest =>
      rw [join, List.append_assoc, List.singleton_append, splitOn_append hpart,
        ih (List.cons_ne_nil _ _) hrest]
      exact List.cons_ne_nil _ _

end Text

namespace Path

/-- The path consists of names that a directory can hold. -/
def Named (p : Path) : Prop := ∀ name ∈ p.parts, name ≠ [] ∧ '/' ∉ name

instance (p : Path) : Decidable p.Named :=
  inferInstanceAs (Decidable (∀ name ∈ p.parts, name ≠ [] ∧ '/' ∉ name))

theorem names_of_toText {p : Path} (h : p.Named) :
    (Text.splitOn '/' (Text.join ['/'] p.parts)).filter (· ≠ []) = p.parts := by
  have hnames : p.parts.filter (· ≠ []) = p.parts := by
    apply List.filter_eq_self.mpr
    intro name hname
    exact decide_eq_true (h name hname).1
  by_cases hne : p.parts = []
  · rw [hne]
    rfl
  · rw [Text.splitOn_join hne fun name hname => (h name hname).2, hnames]

theorem toText_injective {p q : Path} (hp : p.Named) (hq : q.Named) (h : p.toText = q.toText) :
    p = q := by
  have hjoin : Text.join ['/'] p.parts = Text.join ['/'] q.parts := (List.cons.inj h).2
  have hparts : p.parts = q.parts := by
    rw [← names_of_toText hp, hjoin, names_of_toText hq]
  cases p
  cases q
  exact congrArg Path.mk hparts

end Path

namespace Store

variable {s t : Store} {places : Path → Prop}

/-- The store is a tree of directories and files: no path occurs twice, and each consists of
names. -/
structure IsTree (s : Store) : Prop where
  distinct : s.Distinct
  named : ∀ p ∈ s.entries.map (·.1), p.Named

instance (s : Store) : Decidable s.IsTree :=
  decidable_of_iff (s.Distinct ∧ ∀ p ∈ s.entries.map (·.1), p.Named)
    ⟨fun h => ⟨h.1, h.2⟩, fun h => ⟨h.distinct, h.named⟩⟩

theorem Rewritten.below_eq (h : s.Rewritten places t) (hs : s.Distinct) (ht : t.Distinct)
    (directory : Path) : t.below directory = s.below directory := by
  have hsame : (t.entries.map (·.1)).Perm (s.entries.map (·.1)) :=
    (List.perm_ext_iff_of_nodup ht hs).mpr h.paths
  have hparts (a b : Path) (hab : a.parts = b.parts) : a = b := by
    cases a
    cases b
    exact congrArg Path.mk hab
  exact @sortBy_eq_of_perm _ _ Path.parts _ _ _ _ _ (hsame.filter _)
    ((ht.filter _).map hparts)

end Store

namespace Project

variable {s t : Store} {path : Path} {places : Path → Prop}

/-- Where a path leads, and in which order, does not depend on what files hold. -/
theorem candidates_of_rewritten (h : s.Rewritten places t) (hs : s.Distinct) (ht : t.Distinct)
    (path : Path) : candidates t path = candidates s path := by
  unfold candidates
  dsimp only
  rw [h.below_eq hs ht]
  rcases h.kept path.resolve with hsame | ⟨-, hfile, text, htext⟩
  · rw [hsame]
  · obtain ⟨bytes, hentry⟩ := Store.isFile_iff.mp hfile
    rw [htext, hentry]

/-- What is discovered does not depend on what files hold. -/
theorem discover_of_rewritten (h : s.Rewritten places t) (hs : s.Distinct) (ht : t.Distinct)
    (paths : List Path) : discover t paths = discover s paths := by
  have hcandidates : candidates t = candidates s := funext (candidates_of_rewritten h hs ht)
  have hfiles : t.isFile = s.isFile := funext fun q => Bool.eq_iff_iff.mpr (h.isFile_iff q)
  unfold discover
  rw [hcandidates, hfiles]

/-- Every file that is discovered in a tree is at a path that consists of names. -/
theorem named_of_discover (tree : s.IsTree) {paths files : List Path}
    (h : discover s paths = .ok files) : ∀ p ∈ files, p.Named := by
  intro p hp
  exact tree.named p (Store.mem_paths_of_isFile ((mem_discover h).mp hp).1)

theorem mapM_cons_eq_ok_iff {α β : Type} {f : α → Except Fault β} {a : α} {rest : List α}
    {found : List β} :
    (a :: rest).mapM f = .ok found ↔
      ∃ first more, f a = .ok first ∧ rest.mapM f = .ok more ∧ found = first :: more := by
  rw [List.mapM_cons]
  cases f a with
  | error e => simp [bind, Except.bind]
  | ok first =>
    cases rest.mapM f with
    | error e => simp [bind, Except.bind]
    | ok more => simp [bind, Except.bind, pure, Except.pure, eq_comm]

theorem mapM_perm {α β : Type} {f : α → Except Fault β} {items items' : List α} {found : List β}
    (same : items'.Perm items) (h : items.mapM f = .ok found) :
    ∃ found', items'.mapM f = .ok found' ∧ found'.Perm found := by
  induction same generalizing found with
  | nil => exact ⟨found, h, .refl _⟩
  | cons a _ ih =>
    obtain ⟨first, more, hfirst, hmore, rfl⟩ := mapM_cons_eq_ok_iff.mp h
    obtain ⟨more', hmore', hperm⟩ := ih hmore
    exact ⟨first :: more', mapM_cons_eq_ok_iff.mpr ⟨first, more', hfirst, hmore', rfl⟩,
      hperm.cons first⟩
  | swap a b rest =>
    obtain ⟨first, others, hfirst, hothers, rfl⟩ := mapM_cons_eq_ok_iff.mp h
    obtain ⟨second, more, hsecond, hmore, rfl⟩ := mapM_cons_eq_ok_iff.mp hothers
    refine ⟨second :: first :: more, ?_, .swap first second more⟩
    exact mapM_cons_eq_ok_iff.mpr ⟨second, _, hsecond,
      mapM_cons_eq_ok_iff.mpr ⟨first, more, hfirst, hmore, rfl⟩, rfl⟩
  | trans _ _ ih ih' =>
    obtain ⟨between, hbetween, hperm⟩ := ih' h
    obtain ⟨found', hfound', hperm'⟩ := ih hbetween
    exact ⟨found', hfound', hperm'.trans hperm⟩

theorem discover_perm {paths paths' files : List Path} (same : paths'.Perm paths)
    (h : discover s paths = .ok files) :
    ∃ files', discover s paths' = .ok files' ∧ files'.Perm files := by
  unfold discover at h ⊢
  cases hplaces : paths.mapM (candidates s) with
  | error f => rw [hplaces] at h; cases h
  | ok places =>
    rw [hplaces] at h
    cases Except.ok.inj h
    obtain ⟨places', hplaces', hperm⟩ := mapM_perm same hplaces
    exact ⟨_, by rw [hplaces']; rfl, hperm.flatten.filter _⟩

section Steps

variable {α : Type} {location : α → Location} {step : Desk → Except Fault (List α) × Desk}
  {paths paths' : List Path} {found : List α} {after : Store}

/-- A run over paths is a run over the files that are discovered when it starts. -/
theorem overPaths_eq_ok_iff (h : Confined step) (hs : s.Distinct) :
    overPaths step paths s = (.ok found, after) ↔
      ∃ files, discover s paths = .ok files ∧ overFiles step files s = (.ok found, after) := by
  induction paths generalizing s found with
  | nil =>
    have hnone : discover s [] = .ok [] := rfl
    simp [overPaths, overFiles, hnone]
  | cons path rest ih =>
    -- The later paths are looked up in a rewritten store, in which they lead to the same files.
    have hlater {first : List Path} {early : List α} {between : Store}
        (hfirst : overFiles step first s = (.ok early, between)) :
        between.Distinct ∧ discover between rest = discover s rest := by
      have hchanges := overFiles_changesOnly h.changes first s
      rw [hfirst] at hchanges
      have hdistinct := h.overFiles_distinct hfirst hs
      exact ⟨hdistinct, discover_of_rewritten hchanges.1 hs hdistinct rest⟩
    rw [overPaths_cons]
    constructor
    · intro run
      cases hplaces : candidates s path with
      | error f => rw [hplaces] at run; cases run
      | ok first =>
        rw [hplaces] at run
        obtain ⟨early, between, late, hfirst, hrest, rfl⟩ := inTurn_eq_ok_iff.mp run
        obtain ⟨hdistinct, hsame⟩ := hlater hfirst
        obtain ⟨more, hmore, hlate⟩ := (ih hdistinct).mp hrest
        rw [hsame] at hmore
        refine ⟨_, discover_cons_eq_ok_iff.mpr ⟨first, more, hplaces, hmore, rfl⟩, ?_⟩
        rw [overFiles_append, h.overFiles_filter_isFile]
        exact inTurn_eq_ok_iff.mpr ⟨early, between, late, hfirst, hlate, rfl⟩
    · rintro ⟨files, hfiles, run⟩
      obtain ⟨first, more, hplaces, hmore, rfl⟩ := discover_cons_eq_ok_iff.mp hfiles
      rw [overFiles_append, h.overFiles_filter_isFile] at run
      obtain ⟨early, between, late, hfirst, hlate, rfl⟩ := inTurn_eq_ok_iff.mp run
      obtain ⟨hdistinct, hsame⟩ := hlater hfirst
      rw [← hsame] at hmore
      rw [hplaces]
      exact inTurn_eq_ok_iff.mpr
        ⟨early, between, late, hfirst, (ih hdistinct).mpr ⟨more, hmore, hlate⟩, rfl⟩

/-- A run over paths comes to the same end in whatever order these are given. -/
theorem overPaths_perm (h : Separate location step) (tree : s.IsTree)
    (same : paths'.Perm paths) (run : overPaths step paths s = (.ok found, after)) :
    ∃ found' after', overPaths step paths' s = (.ok found', after') ∧
      (∀ q, after'.entryAt? q = after.entryAt? q) ∧
      Location.sortOn location found' = Location.sortOn location found := by
  obtain ⟨files, hfiles, hrun⟩ := (overPaths_eq_ok_iff h.toConfined tree.distinct).mp run
  obtain ⟨files', hfiles', hperm⟩ := discover_perm same hfiles
  have hnamed := named_of_discover tree hfiles
  obtain ⟨found', after', hrun', hafter, hfound⟩ := h.overFiles_perm hperm
    (fun p hp q hq => Path.toText_injective (hnamed p hp) (hnamed q hq)) hrun
  exact ⟨found', after', (overPaths_eq_ok_iff h.toConfined tree.distinct).mpr
    ⟨files', hfiles', hrun'⟩, hafter, Location.sortOn_eq_of_filter_eq hfound⟩

end Steps

section Reports

variable {c : Configuration} {store : Store} {paths paths' files : List Path}
  {found : List Diagnostic}

variable [Parser]

/-- What the rules report in a stored file. -/
def reportsOn (c : Configuration) (store : Store) (path : Path) : Except Fault (List Diagnostic) :=
  (load store path).bind fun file => (c.diagnose file {}).1

theorem visit_diagnosing (c : Configuration) (hfile : store.isFile path) :
    visit (diagnosing c) store path = (reportsOn c store path, store) := by
  unfold visit reportsOn
  rw [if_neg (by simp [hfile])]
  cases load store path with
  | error f => rfl
  | ok file => rfl

/-- A run that diagnoses files changes nothing and finds what the rules report in one file after
the other. -/
theorem overFiles_diagnosing_eq_ok_iff {after : Store} (hfiles : ∀ p ∈ files, store.isFile p) :
    overFiles (diagnosing c) files store = (.ok found, after) ↔
      after = store ∧ ∃ reports, files.mapM (reportsOn c store) = .ok reports ∧
        found = reports.flatten := by
  induction files generalizing found with
  | nil => simp [overFiles, pure, Except.pure, eq_comm, and_comm]
  | cons path rest ih =>
    obtain ⟨hfile, hrest⟩ := List.forall_mem_cons.mp hfiles
    rw [overFiles_eq_inTurn, visit_diagnosing c hfile]
    constructor
    · intro run
      obtain ⟨early, between, late, hfirst, hlater, rfl⟩ := inTurn_eq_ok_iff.mp run
      obtain ⟨hreport, rfl⟩ := Prod.mk.inj hfirst
      obtain ⟨rfl, reports, hreports, rfl⟩ := (ih hrest).mp hlater
      exact ⟨rfl, early :: reports,
        mapM_cons_eq_ok_iff.mpr ⟨early, reports, hreport, hreports, rfl⟩, rfl⟩
    · rintro ⟨rfl, reports, hreports, rfl⟩
      obtain ⟨early, late, hreport, hlate, rfl⟩ := mapM_cons_eq_ok_iff.mp hreports
      exact inTurn_eq_ok_iff.mpr ⟨early, after, late.flatten, by rw [hreport],
        (ih hrest).mpr ⟨rfl, late, hlate, rfl⟩, rfl⟩

/-- Diagnosing paths succeeds exactly if every path leads somewhere and the rules get through every
file found there; then their reports come sorted. -/
theorem diagnose_eq_ok_iff (distinct : store.Distinct) :
    diagnose c store paths = .ok found ↔
      ∃ files reports, discover store paths = .ok files ∧
        files.mapM (reportsOn c store) = .ok reports ∧
        found = Location.sortOn (·.location) reports.flatten := by
  rw [diagnose_eq]
  constructor
  · intro h
    rcases hrun : overPaths (diagnosing c) paths store with ⟨f | unsorted, after⟩
    · rw [hrun] at h
      cases h
    · rw [hrun] at h
      cases Except.ok.inj h
      obtain ⟨files, hfiles, hwork⟩ := (overPaths_eq_ok_iff (confined_diagnosing c) distinct).mp hrun
      have hall : ∀ p ∈ files, store.isFile p := fun p hp => ((mem_discover hfiles).mp hp).1
      obtain ⟨-, reports, hreports, rfl⟩ := (overFiles_diagnosing_eq_ok_iff hall).mp hwork
      exact ⟨files, reports, hfiles, hreports, rfl⟩
  · rintro ⟨files, reports, hfiles, hreports, rfl⟩
    have hall : ∀ p ∈ files, store.isFile p := fun p hp => ((mem_discover hfiles).mp hp).1
    have hwork := (overFiles_diagnosing_eq_ok_iff hall).mpr ⟨rfl, reports, hreports, rfl⟩
    rw [(overPaths_eq_ok_iff (confined_diagnosing c) distinct).mpr ⟨files, hfiles, hwork⟩]
    rfl

/-- Whatever the rules report, the order of the paths changes no more than the order in which
diagnostics at one location come. -/
theorem diagnose_perm (distinct : store.Distinct) (same : paths'.Perm paths)
    (h : diagnose c store paths = .ok found) :
    ∃ found', diagnose c store paths' = .ok found' ∧ found'.Perm found := by
  obtain ⟨files, reports, hfiles, hreports, rfl⟩ := (diagnose_eq_ok_iff distinct).mp h
  obtain ⟨files', hfiles', hperm⟩ := discover_perm same hfiles
  obtain ⟨reports', hreports', hperm'⟩ := mapM_perm hperm hreports
  refine ⟨_, (diagnose_eq_ok_iff distinct).mpr ⟨files', reports', hfiles', hreports', rfl⟩, ?_⟩
  exact (Location.sortOn_perm _).trans (hperm'.flatten.trans (Location.sortOn_perm _).symm)

/-- Where rules report in the files that they see, the order of the paths makes no difference. -/
theorem diagnose_eq_of_perm (inPlace : c.ReportsInPlace) (tree : store.IsTree)
    (same : paths'.Perm paths) (h : diagnose c store paths = .ok found) :
    diagnose c store paths' = .ok found := by
  rw [diagnose_eq] at h ⊢
  rcases hrun : overPaths (diagnosing c) paths store with ⟨f | unsorted, after⟩
  · rw [hrun] at h
    cases h
  · rw [hrun] at h
    cases Except.ok.inj h
    obtain ⟨found', after', hrun', -, hsorted⟩ :=
      overPaths_perm (separate_diagnosing inPlace) tree same hrun
    rw [hrun']
    exact congrArg Except.ok hsorted

end Reports

/-- Where rules report in the files that they see and change nothing but by their edits, the order
in which paths are given makes no difference. -/
theorem runs_in_any_order [Parser] {c : Configuration} {store : Store} (tree : store.IsTree)
    {paths paths' : List Path} (same : paths'.Perm paths) :
    (∀ found, diagnose c store paths = .ok found →
      (found.map (·.location)).Pairwise (·.atMost ·) ∧
      (∃ files reports, discover store paths = .ok files ∧
        files.mapM (reportsOn c store) = .ok reports ∧
        ∀ l, found.filter (·.location = l) = reports.flatten.filter (·.location = l)) ∧
      (∃ found', diagnose c store paths' = .ok found' ∧ found'.Perm found) ∧
      (c.ReportsInPlace → diagnose c store paths' = .ok found)) ∧
    (c.SharesCorrection → ∀ made after, correct c store paths = (.ok made, after) →
      ∃ after', correct c store paths' = (.ok made, after') ∧
        ∀ q, after'.entryAt? q = after.entryAt? q) ∧
    ∀ cache : ParseCache, cache.Sound →
      diagnoseThrough c cache store paths = diagnose c store paths ∧
      (c.SharesCorrection → correctThrough c cache store paths = correct c store paths) := by
  refine ⟨?_, ?_, fun cache sound => ⟨diagnoseThrough_eq c sound store paths, fun shares =>
    correctThrough_eq shares sound store paths⟩⟩
  · intro found h
    obtain ⟨files, reports, hfiles, hreports, hfound⟩ := (diagnose_eq_ok_iff tree.distinct).mp h
    refine ⟨?_, ⟨files, reports, hfiles, hreports, ?_⟩, diagnose_perm tree.distinct same h, ?_⟩
    · rw [hfound]
      exact Location.sortOn_ascending _
    · intro l
      rw [hfound]
      exact Location.sortOn_filter _ l
    · intro inPlace
      exact diagnose_eq_of_perm inPlace tree same h
  · intro shares made after h
    obtain ⟨found, run, rfl⟩ := correct_eq_ok_iff.mp h
    obtain ⟨found', after', run', hafter, hsorted⟩ :=
      overPaths_perm (separate_correct shares) tree same run
    exact ⟨after', correct_eq_ok_iff.mpr ⟨found', run', hsorted.symm⟩, hafter⟩

section Orders

def folder : Path := ⟨["d".toList]⟩

def inner : Path := ⟨["d".toList, "x.py".toList]⟩

def outer : Path := ⟨["a.py".toList]⟩

/-- A module in a directory and one beside it. -/
def twoModules : Store :=
  { entries :=
      [(folder, .directory), (inner, .file (Text.encode "x == None # ok\n".toList)),
        (outer, .file (Text.encode "None != ok\n".toList))] }

open scoped Comparison

/-- One of the modules is given twice, once by its directory. -/
theorem runs_in_any_order_twice :
    let paths := [folder, outer, inner]
    let paths' := [inner, folder, outer]
    twoModules.IsTree ∧ paths'.Perm paths ∧
      (∃ found, found.length = 3 ∧ diagnose {} twoModules paths = .ok found ∧
        diagnose {} twoModules paths' = .ok found) ∧
      ∃ made after after', made.length = 2 ∧ correct {} twoModules paths = (.ok made, after) ∧
        correct {} twoModules paths' = (.ok made, after') ∧
        after'.entryAt? inner = some (.file (Text.encode "x is None # ok\n".toList)) := by
  intro paths paths'
  have tree : twoModules.IsTree := by decide
  have same : paths'.Perm paths := by decide
  have inPlace : ({} : Configuration).ReportsInPlace :=
    Configuration.reportsInPlace_of_standard rfl (by simp)
  have shares : ({} : Configuration).SharesCorrection :=
    Configuration.sharesCorrection_of_standard rfl (by simp)
  obtain ⟨hdiagnose, hcorrect, -⟩ := @runs_in_any_order _ {} _ tree _ _ same
  refine ⟨tree, same, ?_, ?_⟩
  · have hlength : (diagnose {} twoModules paths).map List.length = .ok 3 := by decide +kernel
    rcases hfound : diagnose {} twoModules paths with f | found
    · rw [hfound] at hlength
      cases hlength
    · rw [hfound] at hlength
      exact ⟨found, Except.ok.inj hlength, rfl, (hdiagnose found hfound).2.2.2 inPlace⟩
  · have hlength : (correct {} twoModules paths).1.map List.length = .ok 2 := by decide +kernel
    have hinner : (correct {} twoModules paths).2.entryAt? inner =
        some (.file (Text.encode "x is None # ok\n".toList)) := by decide +kernel
    rcases hmade : correct {} twoModules paths with ⟨f | made, after⟩
    · rw [hmade] at hlength
      cases hlength
    · rw [hmade] at hlength hinner
      obtain ⟨after', hmade', hafter⟩ := hcorrect shares made after hmade
      exact ⟨made, after, after', Except.ok.inj hlength, rfl, hmade', (hafter inner).trans hinner⟩

/-- A rule that reports and records what a file holds, but not which file that is. -/
def unplaced : RuleKind :=
  let description : Description :=
    { identifier := "unplaced".toList
      name := "Unplaced".toList
      summary := "Reports contents without a place.".toList }
  let recorded : Override := fun _ _ desk =>
    (.ok [⟨description.identifier, desk.file.contents, {}⟩], desk)
  { key := description.identifier
    typeName := "UnplacedRule".toList
    description
    inspect := fun s v => .ok [description.diagnostic s.severity {} v.file.contents]
    corrector := some { edits := fun _ _ => .ok [], override := some recorded } }

/-- What names no file comes in the order of the paths. -/
theorem order_matters_to_some_rules :
    let c : Configuration := { registry := { kinds := [unplaced] } }
    twoModules.IsTree ∧ [outer, inner].Perm [inner, outer] ∧
      (∃ found, diagnose c twoModules [inner, outer] = .ok found) ∧
      diagnose c twoModules [outer, inner] ≠ diagnose c twoModules [inner, outer] ∧
      (∃ made after, correct c twoModules [inner, outer] = (.ok made, after)) ∧
      (correct c twoModules [outer, inner]).1 ≠ (correct c twoModules [inner, outer]).1 := by
  exact ⟨by decide, by decide, ⟨_, rfl⟩, by decide +kernel, ⟨_, _, rfl⟩, by decide +kernel⟩

end Orders

end Project

end StyleRules
