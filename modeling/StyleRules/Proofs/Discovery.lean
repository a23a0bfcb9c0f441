import StyleRules.Project
import StyleRules.Proofs.Sorting
import StyleRules.Proofs.Storage

namespace StyleRules

namespace Store

variable {s t u : Store} {p q : Path}

theorem isFile_iff : s.isFile q ↔ ∃ bytes, s.entryAt? q = some (.file bytes) := by
  unfold isFile
  cases s.entryAt? q with
  | none => simp
  | some e => cases e <;> simp

theorem isDirectory_iff : s.isDirectory q ↔ s.entryAt? q = some .directory := by
  simp [isDirectory]

theorem read_eq_ok_iff {bytes : Bytes} :
    s.read q = .ok bytes ↔ s.entryAt? q = some (.file bytes) := by
  unfold read
  cases s.entryAt? q with
  | none => simp
  | some e => cases e <;> simp

theorem exists_read (h : s.isFile q) : ∃ bytes, s.read q = .ok bytes := by
  obtain ⟨bytes, hentry⟩ := isFile_iff.mp h
  exact ⟨bytes, read_eq_ok_iff.mpr hentry⟩

theorem mem_paths_of_isFile (h : s.isFile q) : q ∈ s.entries.map (·.1) := by
  obtain ⟨bytes, hentry⟩ := isFile_iff.mp h
  unfold entryAt? at hentry
  split at hentry
  next => cases hentry
  next =>
    obtain ⟨e, hfind, -⟩ := Option.map_eq_some_iff.mp hentry
    have hkey : e.1 = q := by simpa using List.find?_some hfind
    exact List.mem_map.mpr ⟨e, List.mem_of_find?_eq_some hfind, hkey⟩

/-- A store in which nothing has changed but what files at some places hold, which now is a
text. -/
structure Rewritten (places : Path → Prop) (s t : Store) : Prop where
  kept : ∀ q, t.entryAt? q = s.entryAt? q ∨
    places q ∧ s.isFile q ∧ ∃ text, t.entryAt? q = some (.file (Text.encode text))
  paths : ∀ q, q ∈ t.entries.map (·.1) ↔ q ∈ s.entries.map (·.1)

namespace Rewritten

variable {places more : Path → Prop}

theorem refl (places : Path → Prop) (s : Store) : s.Rewritten places s :=
  ⟨fun _ => .inl rfl, fun _ => Iff.rfl⟩

theorem weaken (h : s.Rewritten places t) (among : ∀ q, s.isFile q → places q → more q) :
    s.Rewritten more t := by
  refine ⟨fun q => ?_, h.paths⟩
  rcases h.kept q with hsame | ⟨hplace, hfile, htext⟩
  · exact .inl hsame
  · exact .inr ⟨among q hfile hplace, hfile, htext⟩

theorem isFile_iff (h : s.Rewritten places t) (q : Path) : t.isFile q ↔ s.isFile q := by
  rcases h.kept q with hsame | ⟨-, hfile, text, htext⟩
  · simp only [isFile, hsame]
  · exact iff_of_true (Store.isFile_iff.mpr ⟨_, htext⟩) hfile

theorem isDirectory_iff (h : s.Rewritten places t) (q : Path) :
    t.isDirectory q ↔ s.isDirectory q := by
  rcases h.kept q with hsame | ⟨-, hfile, text, htext⟩
  · simp only [isDirectory, hsame]
  · obtain ⟨bytes, hentry⟩ := Store.isFile_iff.mp hfile
    simp [isDirectory, htext, hentry]

theorem isSome_entryAt?_iff (h : s.Rewritten places t) (q : Path) :
    (t.entryAt? q).isSome ↔ (s.entryAt? q).isSome := by
  rcases h.kept q with hsame | ⟨-, hfile, text, htext⟩
  · rw [hsame]
  · obtain ⟨bytes, hentry⟩ := Store.isFile_iff.mp hfile
    rw [htext, hentry]
    exact Iff.rfl

theorem trans (h : s.Rewritten places t) (h' : t.Rewritten places u) : s.Rewritten places u := by
  refine ⟨fun q => ?_, fun q => (h'.paths q).trans (h.paths q)⟩
  rcases h'.kept q with hsame | ⟨hplace, hfile, htext⟩
  · rw [hsame]
    exact h.kept q
  · exact .inr ⟨hplace, (h.isFile_iff q).mp hfile, htext⟩

/-- Bytes that are no text have not been written. -/
theorem entryAt?_of_undecodable (h : s.Rewritten places t) {bytes : Bytes}
    (hread : t.read q = .ok bytes) (hnone : Text.decode? bytes = none) :
    t.entryAt? q = s.entryAt? q := by
  rcases h.kept q with hsame | ⟨-, -, text, htext⟩
  · exact hsame
  · rw [read_eq_ok_iff, htext] at hread
    cases hread
    rw [Text.decode?_encode] at hnone
    cases hnone

end Rewritten

theorem rewritten_of_write {text : Text} (hfile : s.isFile p)
    (h : s.write p (Text.encode text) = .ok t) : s.Rewritten (· = p) t := by
  have hroot := ne_root_of_write h
  have hmem := mem_paths_of_isFile hfile
  constructor
  · intro q
    by_cases hq : q = p
    · subst hq
      have hread := read_eq_ok_iff.mp (read_write h)
      exact .inr ⟨rfl, hfile, text, hread⟩
    · exact .inl (entryAt?_write_of_ne h hq)
  · intro q
    obtain ⟨-, -, rfl⟩ := write_eq_ok_iff.mp h
    by_cases hq : q = p
    · subst hq
      exact iff_of_true (by simp [put]) hmem
    · simp [put, hq]

theorem mem_below {directory : Path} :
    q ∈ s.below directory ↔ q ∈ s.entries.map (·.1) ∧ q.isBelow directory := by
  rw [below, (sortBy_perm _).mem_iff, List.mem_filter]

theorem below_ascending (s : Store) (directory : Path) :
    (s.below directory).Pairwise (·.atMost ·) :=
  sortBy_pairwise (fun a b => compare_ne_gt_total a.parts b.parts)
    (fun a b c => compare_ne_gt_trans a.parts b.parts c.parts) _

end Store

namespace Project

variable {s t : Store} {path q : Path} {places : List Path}

/-- A path leads to a place of a known dialect: to itself if a file stands there, or to any place
below if a directory does, unless the way leads through a directory that is left alone. -/
def LeadsTo (s : Store) (path q : Path) : Prop :=
  isLintable q ∧
    (s.isFile path.resolve ∧ q = path.resolve ∨
      s.isDirectory path.resolve ∧ q ∈ s.entries.map (·.1) ∧ q.isBelow path.resolve ∧
        ¬isExcluded q)

theorem candidates_eq_error_iff {f : Fault} :
    candidates s path = .error f ↔ s.entryAt? path.resolve = none ∧ f = .noSuchPath path := by
  unfold candidates
  dsimp only
  cases s.entryAt? path.resolve with
  | none => simp [eq_comm]
  | some e => cases e <;> simp

theorem exists_candidates_iff :
    (∃ places, candidates s path = .ok places) ↔ (s.entryAt? path.resolve).isSome := by
  unfold candidates
  dsimp only
  cases s.entryAt? path.resolve with
  | none => simp
  | some e => cases e <;> simp

theorem mem_candidates (h : candidates s path = .ok places) :
    q ∈ places ↔ LeadsTo s path q := by
  unfold candidates at h
  dsimp only at h
  unfold LeadsTo
  split at h
  next => cases h
  next bytes hentry =>
    cases Except.ok.inj h
    have hfile : s.isFile path.resolve := Store.isFile_iff.mpr ⟨bytes, hentry⟩
    have hdirectory : s.isDirectory path.resolve = false := by simp [Store.isDirectory, hentry]
    by_cases hlintable : isLintable path.resolve <;> grind
  next hentry =>
    cases Except.ok.inj h
    have hfile : s.isFile path.resolve = false := by simp [Store.isFile, hentry]
    have hdirectory : s.isDirectory path.resolve := Store.isDirectory_iff.mpr hentry
    rw [List.mem_filter, Store.mem_below]
    simp [hfile, hdirectory, and_assoc, and_comm, and_left_comm]

theorem candidates_ascending (h : candidates s path = .ok places) :
    places.Pairwise (·.atMost ·) := by
  unfold candidates at h
  dsimp only at h
  split at h
  next => cases h
  next =>
    cases Except.ok.inj h
    split
    next => exact List.pairwise_singleton _ _
    next => exact List.Pairwise.nil
  next =>
    cases Except.ok.inj h
    exact (s.below_ascending path.resolve).filter _

theorem discover_cons (s : Store) (path : Path) (rest : List Path) :
    discover s (path :: rest) =
      (candidates s path).bind fun places =>
        (discover s rest).map (places.filter s.isFile ++ ·) := by
  unfold discover
  rw [List.mapM_cons]
  cases candidates s path with
  | error f => rfl
  | ok places =>
    cases rest.mapM (candidates s) with
    | error f => simp [bind, Except.bind, Except.map]
    | ok more => simp [bind, Except.bind, Except.map, pure, Except.pure]

theorem discover_cons_eq_ok_iff {rest found : List Path} :
    discover s (path :: rest) = .ok found ↔
      ∃ places more, candidates s path = .ok places ∧ discover s rest = .ok more ∧
        found = places.filter s.isFile ++ more := by
  rw [discover_cons]
  cases candidates s path with
  | error f => simp [Except.bind]
  | ok places =>
    cases discover s rest with
    | error f => simp [Except.bind, Except.map]
    | ok more => simp [Except.bind, Except.map, eq_comm]

/-- Discovery succeeds if there is something at every path. -/
theorem exists_discover {paths : List Path} (h : ∀ p ∈ paths, (s.entryAt? p.resolve).isSome) :
    ∃ found, discover s paths = .ok found := by
  induction paths with
  | nil => exact ⟨[], rfl⟩
  | cons path rest ih =>
    obtain ⟨hpath, hrest⟩ := List.forall_mem_cons.mp h
    obtain ⟨places, hplaces⟩ := exists_candidates_iff.mpr hpath
    obtain ⟨found, hfound⟩ := ih hrest
    exact ⟨_, discover_cons_eq_ok_iff.mpr ⟨places, found, hplaces, hfound, rfl⟩⟩

/-- The files discovered are those that one of the paths leads to. -/
theorem mem_discover {paths found : List Path} (h : discover s paths = .ok found) :
    q ∈ found ↔ s.isFile q ∧ ∃ p ∈ paths, LeadsTo s p q := by
  induction paths generalizing found with
  | nil =>
    cases Except.ok.inj h
    simp
  | cons path rest ih =>
    obtain ⟨places, more, hplaces, hrest, rfl⟩ := discover_cons_eq_ok_iff.mp h
    rw [List.mem_append, List.mem_filter, mem_candidates hplaces, ih hrest]
    simp only [List.mem_cons, exists_eq_or_imp]
    tauto

/-- Where paths lead does not depend on what files hold. -/
theorem leadsTo_of_rewritten {changed : Path → Prop} (h : s.Rewritten changed t) :
    LeadsTo t path q ↔ LeadsTo s path q := by
  unfold LeadsTo
  rw [h.isFile_iff, h.isDirectory_iff, h.paths]

end Project

end StyleRules
