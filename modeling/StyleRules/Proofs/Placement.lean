import StyleRules.Proofs.SeparateFiles
import Mathlib.Data.List.Infix

namespace StyleRules

namespace Path

variable {p d : Path} {names more : List Text}

/-- The place that names lead to from a directory. -/
def down (d : Path) (names : List Text) : Path := ⟨d.parts ++ names⟩

theorem down_injective (h : d.down names = d.down more) : names = more :=
  List.append_cancel_left (congrArg parts h)

theorem isBelow_iff : p.isBelow d ↔ ∃ names, names ≠ [] ∧ p = d.down names := by
  obtain ⟨parts⟩ := p
  obtain ⟨directory⟩ := d
  simp only [isBelow, isWithin, Bool.and_eq_true, List.isPrefixOf_iff_prefix, bne_iff_ne, ne_eq,
    down, mk.injEq]
  constructor
  · rintro ⟨⟨names, rfl⟩, hne⟩
    exact ⟨names, fun hnil => hne (by rw [hnil, List.append_nil]), rfl⟩
  · rintro ⟨names, hnames, rfl⟩
    exact ⟨List.prefix_append _ _, fun heq => hnames (List.append_right_eq_self.mp heq)⟩

theorem drop_down (d : Path) (names : List Text) :
    (d.down names).parts.drop d.parts.length = names := List.drop_left

theorem compare_append (first a b : List Text) : compare (first ++ a) (first ++ b) = compare a b := by
  induction first with
  | nil => rfl
  | cons name first ih =>
    have hsame : compare name name = .eq := Std.ReflOrd.compare_self
    show List.compareLex compare (name :: (first ++ a)) (name :: (first ++ b)) = _
    rw [List.compareLex_cons_cons, hsame]
    exact ih

end Path

namespace Store

/-- What stands below a directory of a store stands below one of another store, under the same
names. -/
def AlikeBelow (s t : Store) (d e : Path) : Prop :=
  ∀ names, names ≠ [] → t.entryAt? (e.down names) = s.entryAt? (d.down names)

theorem AlikeBelow.isFile {s t : Store} {d e : Path} (h : s.AlikeBelow t d e) {names : List Text}
    (hne : names ≠ []) : t.isFile (e.down names) = s.isFile (d.down names) := by
  unfold Store.isFile
  rw [h names hne]

/-- A directory tree at a place: the directories on the way there, and the entries of the tree under
the names that lead to them. -/
def placed (d : Path) (tree : List (List Text × Entry)) : Store :=
  { entries := (d.parts.inits.map fun parts => (⟨parts⟩, .directory)) ++
      tree.map fun entry => (d.down entry.1, entry.2) }

theorem entryAt?_placed {d : Path} {tree : List (List Text × Entry)} {names : List Text}
    (hne : names ≠ []) :
    (placed d tree).entryAt? (d.down names) = (tree.find? (·.1 = names)).map (·.2) := by
  have hroot : d.down names ≠ .root := by
    intro heq
    exact hne (List.append_eq_nil_iff.mp (congrArg Path.parts heq)).2
  have hway : (d.parts.inits.map fun parts => ((⟨parts⟩, .directory) : Path × Entry)).find?
      (·.1 = d.down names) = none := by
    rw [List.find?_eq_none]
    intro entry hentry
    obtain ⟨parts, hparts, rfl⟩ := List.mem_map.mp hentry
    have hle := ((List.mem_inits _ _).mp hparts).length_le
    have hlong := List.length_pos_iff.mpr hne
    simp only [decide_eq_true_eq]
    intro heq
    have hlength := congrArg (fun p : Path => p.parts.length) heq
    simp only [Path.down, List.length_append] at hlength
    omega
  have hsame : (fun entry : Path × Entry => decide (entry.1 = d.down names)) ∘
      (fun entry : List Text × Entry => (d.down entry.1, entry.2)) =
      fun entry => decide (entry.1 = names) := by
    funext entry
    exact decide_eq_decide.mpr ⟨Path.down_injective, fun heq => congrArg d.down heq⟩
  rw [entryAt?, if_neg hroot, placed, List.find?_append, hway, Option.none_or, List.find?_map, hsame,
    Option.map_map]
  rfl

theorem alikeBelow_placed (d e : Path) (tree : List (List Text × Entry)) :
    (placed d tree).AlikeBelow (placed e tree) d e := by
  intro names hne
  rw [entryAt?_placed hne, entryAt?_placed hne]

end Store

namespace Project

variable {s t : Store} {root root' d e : Path} {names : List Text}

/-- Names lead from a directory to a file of a known dialect, through no directory that is left
alone. -/
def FoundBelow (s : Store) (d : Path) (names : List Text) : Prop :=
  names ≠ [] ∧ s.isFile (d.down names) = true ∧ isLintable ⟨names⟩ = true ∧
    ∀ name ∈ names.dropLast, name ∉ excludedNames

instance (s : Store) (d : Path) (names : List Text) : Decidable (FoundBelow s d names) :=
  inferInstanceAs (Decidable (_ ∧ _ ∧ _ ∧ ∀ name ∈ names.dropLast, name ∉ excludedNames))

theorem FoundBelow.alike (h : s.AlikeBelow t d e) : FoundBelow t e names ↔ FoundBelow s d names := by
  unfold FoundBelow
  refine and_congr_right fun hne => ?_
  rw [h.isFile hne]

/-- The names that lead from a directory to the files found below it, in order. -/
def namesBelow (s : Store) (d : Path) : List (List Text) :=
  sortBy (fun a b => compare a b != .gt)
    (((s.below d).map (·.parts.drop d.parts.length)).filter (FoundBelow s d ·))

theorem mem_namesBelow : names ∈ namesBelow s d ↔ FoundBelow s d names := by
  rw [namesBelow, (sortBy_perm _).mem_iff, List.mem_filter, decide_eq_true_eq]
  refine and_iff_right_of_imp fun hfound => List.mem_map.mpr ⟨d.down names, ?_, d.drop_down names⟩
  exact Store.mem_below.mpr ⟨Store.mem_paths_of_isFile hfound.2.1,
    Path.isBelow_iff.mpr ⟨names, hfound.1, rfl⟩⟩

theorem below_strict (hs : s.Distinct) (d : Path) :
    (s.below d).Pairwise fun a b => compare a.parts b.parts = .lt := by
  apply @sortBy_strict _ _ Path.parts
  apply List.Nodup.map _ (hs.filter _)
  intro a b hab
  obtain ⟨a⟩ := a
  obtain ⟨b⟩ := b
  exact congrArg Path.mk hab

theorem namesBelow_strict (hs : s.Distinct) (d : Path) :
    (namesBelow s d).Pairwise fun a b => compare a b = .lt := by
  apply @sortBy_strict _ _ id
  rw [List.map_id]
  apply List.Nodup.filter
  apply List.Nodup.map_on _ (hs.below d)
  intro a ha b hb hab
  obtain ⟨names, -, rfl⟩ := Path.isBelow_iff.mp (Store.mem_below.mp ha).2
  obtain ⟨more, -, rfl⟩ := Path.isBelow_iff.mp (Store.mem_below.mp hb).2
  rw [Path.drop_down, Path.drop_down] at hab
  rw [hab]

/-- Lists in strictly ascending order that have the same elements are the same. -/
theorem eq_of_strict {α β : Type} [Ord β] [Std.TransOrd β] [Std.LawfulEqOrd β] (key : α → β)
    {xs ys : List α} (hx : xs.Pairwise fun a b => compare (key a) (key b) = .lt)
    (hy : ys.Pairwise fun a b => compare (key a) (key b) = .lt) (same : ∀ a, a ∈ xs ↔ a ∈ ys) :
    xs = ys := by
  have hkeys {zs : List α} (h : zs.Pairwise fun a b => compare (key a) (key b) = .lt) :
      (zs.map key).Nodup := by
    apply List.pairwise_map.mpr
    apply h.imp
    intro a b hlt heq
    rw [heq, Std.ReflOrd.compare_self] at hlt
    cases hlt
  have hsorted {zs : List α} (h : zs.Pairwise fun a b => compare (key a) (key b) = .lt) :
      sortBy (fun a b => compare (key a) (key b) != .gt) zs = zs := by
    apply sortBy_eq_self
    apply h.imp
    intro a b hlt
    rw [hlt]
    rfl
  have hperm : xs.Perm ys :=
    (List.perm_ext_iff_of_nodup (.of_map key (hkeys hx)) (.of_map key (hkeys hy))).mpr same
  rw [← hsorted hx, ← hsorted hy]
  exact sortBy_eq_of_perm hperm (hkeys hx)

theorem isLintable_down (hne : names ≠ []) : isLintable (d.down names) = isLintable ⟨names⟩ := by
  have hname : (d.down names).name = Path.name ⟨names⟩ := by
    unfold Path.name Path.down
    rw [List.getLastD_eq_getLast?, List.getLastD_eq_getLast?, List.getLast?_append_of_ne_nil _ hne]
  unfold isLintable Path.suffix
  rw [hname]

theorem isExcluded_down (d : Path) (names : List Text) :
    isExcluded (d.down names) = (isExcluded d || names.any (· ∈ excludedNames)) := List.any_append

/-- A directory that is left alone has a name that no file of a known dialect has. -/
theorem excluded_iff_of_lintable (hne : names ≠ []) (lintable : isLintable ⟨names⟩ = true) :
    names.any (· ∈ excludedNames) = false ↔ ∀ name ∈ names.dropLast, name ∉ excludedNames := by
  have hforeign : ∀ name ∈ excludedNames, isLintable ⟨[name]⟩ = false := by decide
  have hlast : names.getLast hne ∉ excludedNames := by
    intro hmem
    have hnone := hforeign _ hmem
    rw [← @isLintable_down ⟨names.dropLast⟩ _ (List.cons_ne_nil _ _), Path.down,
      List.dropLast_append_getLast, lintable] at hnone
    cases hnone
  conv => lhs; rw [← List.dropLast_append_getLast hne]
  rw [List.any_append]
  simp [hlast]

/-- What is discovered in a directory: the files found below it, or nothing if a directory that is
left alone lies on the way to it. -/
theorem discover_directory (hs : s.Distinct) (directory : s.isDirectory root.resolve) :
    discover s [root] = .ok (if isExcluded root.resolve then []
      else (namesBelow s root.resolve).map root.resolve.down) := by
  have hentry := Store.isDirectory_iff.mp directory
  have hplaces : candidates s root =
      .ok ((s.below root.resolve).filter fun p => !isExcluded p && isLintable p) := by
    unfold candidates
    dsimp only
    rw [hentry]
  rw [discover_cons, hplaces]
  show Except.ok (_ ++ []) = _
  rw [List.append_nil, Except.ok.injEq, List.filter_filter]
  split
  next hexcluded =>
    apply List.filter_eq_nil_iff.mpr
    intro p hp
    obtain ⟨names, -, rfl⟩ := Path.isBelow_iff.mp (Store.mem_below.mp hp).2
    simp [isExcluded_down, hexcluded]
  next hnot =>
    apply eq_of_strict Path.parts
    · exact (below_strict hs _).filter _
    · apply List.pairwise_map.mpr
      apply (namesBelow_strict hs _).imp
      intro a b hlt
      rwa [Path.down, Path.down, Path.compare_append]
    · intro p
      rw [List.mem_filter, Store.mem_below, Path.isBelow_iff]
      simp only [Bool.and_eq_true, Bool.not_eq_true']
      constructor
      · rintro ⟨⟨-, names, hne, rfl⟩, hfile, hexcluded, hlintable⟩
        rw [isLintable_down hne] at hlintable
        rw [isExcluded_down, Bool.or_eq_false_iff] at hexcluded
        have hthrough := (excluded_iff_of_lintable hne hlintable).mp hexcluded.2
        exact List.mem_map_of_mem (mem_namesBelow.mpr ⟨hne, hfile, hlintable, hthrough⟩)
      · intro hmem
        obtain ⟨names, hnames, rfl⟩ := List.mem_map.mp hmem
        obtain ⟨hne, hfile, hlintable, hthrough⟩ := mem_namesBelow.mp hnames
        refine ⟨⟨Store.mem_paths_of_isFile hfile, names, hne, rfl⟩, hfile, ?_,
          (isLintable_down hne).trans hlintable⟩
        rw [isExcluded_down, Bool.or_eq_false_iff]
        exact ⟨Bool.eq_false_iff.mpr hnot, (excluded_iff_of_lintable hne hlintable).mpr hthrough⟩

/-- Where what stands below two directories is alike, one list of names says what is discovered in
each, unless a directory that is left alone lies on the way to it. -/
theorem discover_wherever_placed (hs : s.Distinct) (ht : t.Distinct)
    (directory : s.isDirectory root.resolve) (directory' : t.isDirectory root'.resolve)
    (alike : s.AlikeBelow t root.resolve root'.resolve) :
    ∃ found : List (List Text), found.Pairwise (fun a b => compare a b = .lt) ∧
      (∀ names, names ∈ found ↔ FoundBelow s root.resolve names) ∧
      discover s [root] =
        .ok (if isExcluded root.resolve then [] else found.map root.resolve.down) ∧
      discover t [root'] =
        .ok (if isExcluded root'.resolve then [] else found.map root'.resolve.down) := by
  have hsame : namesBelow t root'.resolve = namesBelow s root.resolve := by
    apply eq_of_strict id (namesBelow_strict ht _) (namesBelow_strict hs _)
    intro names
    rw [mem_namesBelow, mem_namesBelow, FoundBelow.alike alike]
  refine ⟨namesBelow s root.resolve, namesBelow_strict hs _, fun names => mem_namesBelow,
    discover_directory hs directory, ?_⟩
  rw [discover_directory ht directory', hsame]

section Places

def work : Path := ⟨["work".toList]⟩

/-- The same directory of another place, by a path that goes up again. -/
def otherWork : Path := ⟨["srv".toList, "old".toList, "..".toList, "work".toList]⟩

/-- Files of two dialects, one of no dialect, and one in a directory that is left alone. -/
def checkout : List (List Text × Entry) :=
  [(["b".toList], .directory), (["b".toList, "c.swift".toList], .file []),
    (["n.txt".toList], .file []), (["a.py".toList], .file []), (["venv".toList], .directory),
    (["venv".toList, "d.py".toList], .file [])]

theorem discover_wherever_placed_checkout :
    let s := Store.placed work.resolve checkout
    let t := Store.placed otherWork.resolve checkout
    s.Distinct ∧ t.Distinct ∧ s.isDirectory work.resolve ∧ t.isDirectory otherWork.resolve ∧
      s.AlikeBelow t work.resolve otherWork.resolve ∧
      ∃ found : List (List Text), found.length = 2 ∧ ["b".toList, "c.swift".toList] ∈ found ∧
        discover s [work] = .ok (found.map work.down) ∧
        discover t [otherWork] = .ok (found.map otherWork.resolve.down) := by
  intro s t
  have hs : s.Distinct := by decide
  have ht : t.Distinct := by decide
  have directory : s.isDirectory work.resolve := by decide
  have directory' : t.isDirectory otherWork.resolve := by decide
  have alike : s.AlikeBelow t work.resolve otherWork.resolve := Store.alikeBelow_placed _ _ checkout
  obtain ⟨found, -, hmem, hfound, hfound'⟩ :=
    discover_wherever_placed hs ht directory directory' alike
  rw [if_neg (by decide)] at hfound hfound'
  have hlength : (discover s [work]).map List.length = .ok 2 := by decide
  rw [hfound, Except.map, List.length_map] at hlength
  exact ⟨hs, ht, directory, directory', alike, found, Except.ok.inj hlength,
    (hmem _).mpr (by decide), hfound, hfound'⟩

/-- A directory on the way to the place keeps everything below it from being discovered, and only
from there: the file itself is discovered when it is named. -/
theorem placed_below_venv_undiscovered :
    let tree : List (List Text × Entry) :=
      [(["a.py".toList], .file (Text.encode "x == None\n".toList))]
    let inside : Path := ⟨["venv".toList, "p".toList]⟩
    let outside : Path := ⟨["env".toList, "p".toList]⟩
    (Store.placed outside tree).AlikeBelow (Store.placed inside tree) outside inside ∧
      discover (Store.placed outside tree) [outside] = .ok [outside.down ["a.py".toList]] ∧
      discover (Store.placed inside tree) [inside] = .ok [] ∧
      discover (Store.placed inside tree) [inside.down ["a.py".toList]] =
        .ok [inside.down ["a.py".toList]] := by
  exact ⟨Store.alikeBelow_placed _ _ _, by decide, by decide, by decide⟩

end Places

end Project

end StyleRules
