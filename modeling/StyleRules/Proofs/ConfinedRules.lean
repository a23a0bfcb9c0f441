import StyleRules.Proofs.PartialCorrection
import StyleRules.Proofs.SeparateFiles

namespace StyleRules

namespace SourceFile

@[simp]
theorem place_file (file : Option Text) (index : LineIndex) (offset : Int) :
    (place file index offset).file = file := by
  unfold place
  split
  next => rfl
  next => rfl

@[simp]
theorem placeByte_file (file : Option Text) (index : LineIndex) (byteOffset : Int) :
    (placeByte file index byteOffset).file = file := by
  unfold placeByte
  split
  next => exact place_file _ _ _
  next => rfl

end SourceFile

namespace Desk

variable {desk other written : Desk} {path : Path} {contents : Text}

/-- Two desks with the same file at hand, on which their stores agree. -/
structure Alike (path : Path) (desk other : Desk) : Prop where
  file : other.file = desk.file
  cache : other.cache = desk.cache
  store : desk.store.AgreeAt path other.store

theorem Alike.replaceContents (h : desk.Alike path other) (hpath : desk.file.path = some path)
    (hok : desk.replaceContents contents = .ok written) :
    ∃ written', other.replaceContents contents = .ok written' ∧ written.Alike path written' := by
  rcases replaceContents_eq_ok hok with ⟨hnone, -⟩ | ⟨p, store, hp, hwrite, rfl⟩
  · rw [hpath] at hnone
    cases hnone
  · cases hpath.symm.trans hp
    obtain ⟨store', hwrite', hagree⟩ := h.store.write hwrite
    have hfile : other.file.path = some path := by rw [h.file, hpath]
    refine ⟨{ other with file := { other.file with contents }, store := store' }, ?_, ?_, ?_, hagree⟩
    · unfold Desk.replaceContents
      simp only [hfile, hwrite']
    · rw [h.file]
    · exact h.cache

end Desk

/-- Work on the stored file at hand that keeps to this file. -/
structure KeepsTo (path : Path) (work : Desk → Except Fault (List Correction) × Desk) : Prop where
  file : ∀ {desk made worked}, desk.file.path = some path → work desk = (.ok made, worked) →
    worked.file.path = some path
  within : ∀ {desk made worked}, desk.file.path = some path → work desk = (.ok made, worked) →
    ∀ x ∈ made, Project.liesIn (·.location) path x
  distinct : ∀ {desk made worked}, work desk = (.ok made, worked) → desk.store.Distinct →
    worked.store.Distinct
  alike : ∀ {desk other made worked}, desk.file.path = some path → desk.Alike path other →
    work desk = (.ok made, worked) →
      ∃ worked', work other = (.ok made, worked') ∧ worked.Alike path worked'

theorem KeepsTo.nothing (path : Path) : KeepsTo path fun desk => (.ok [], desk) where
  file hpath hwork := by cases hwork; exact hpath
  within _ hwork := by cases hwork; exact List.forall_mem_nil _
  distinct hwork hs := by cases hwork; exact hs
  alike _ h hwork := by cases hwork; exact ⟨_, rfl, h⟩

theorem KeepsTo.inTurn {path : Path} {first rest : Desk → Except Fault (List Correction) × Desk}
    (hfirst : KeepsTo path first) (hrest : KeepsTo path rest) :
    KeepsTo path fun desk => StyleRules.inTurn (first desk) rest where
  file hpath hwork := by
    obtain ⟨early, between, late, hearly, hlate, -⟩ := inTurn_eq_ok_iff.mp hwork
    exact hrest.file (hfirst.file hpath hearly) hlate
  within hpath hwork := by
    obtain ⟨early, between, late, hearly, hlate, rfl⟩ := inTurn_eq_ok_iff.mp hwork
    intro x hx
    rcases List.mem_append.mp hx with hx | hx
    · exact hfirst.within hpath hearly x hx
    · exact hrest.within (hfirst.file hpath hearly) hlate x hx
  distinct hwork hs := by
    obtain ⟨early, between, late, hearly, hlate, -⟩ := inTurn_eq_ok_iff.mp hwork
    exact hrest.distinct hlate (hfirst.distinct hearly hs)
  alike hpath h hwork := by
    obtain ⟨early, between, late, hearly, hlate, rfl⟩ := inTurn_eq_ok_iff.mp hwork
    obtain ⟨between', hearly', hbetween⟩ := hfirst.alike hpath h hearly
    obtain ⟨worked', hlate', hworked⟩ := hrest.alike (hfirst.file hpath hearly) hbetween hlate
    exact ⟨worked', inTurn_eq_ok_iff.mpr ⟨early, between', late, hearly', hlate', rfl⟩, hworked⟩

namespace Rule

variable {r : Rule} {desk worked : Desk} {path : Path} {made : List Correction}

variable [Parser]

/-- The edits that a rule makes in a file, from last to first, each with its location; and the
cache behind them. -/
def planned (r : Rule) (f : SourceFile) (cache : ParseCache) :
    Except Fault (List (Edit × Location)) × ParseCache :=
  let (proposed, cache) := r.proposals f cache
  (proposed.map (r.acceptable f (.ofText f.contents)), (cache.lineIndex f.contents).2)

theorem makeEdits_eq_ok_iff :
    r.makeEdits desk = (.ok made, worked) ↔
      ∃ accepted, (r.planned desk.file desk.cache).1 = .ok accepted ∧
        made = accepted.reverse.map (fun a => r.correctionAt a.2) ∧
        (accepted = [] ∧ worked = { desk with cache := (r.planned desk.file desk.cache).2 } ∨
          accepted ≠ [] ∧ ∃ written,
            desk.replaceContents (Edit.applyAll desk.file.contents (accepted.map (·.1))) =
              .ok written ∧
            worked = { written with cache := (r.planned desk.file desk.cache).2 }) := by
  unfold makeEdits planned
  rcases hproposals : r.proposals desk.file desk.cache with ⟨f | edits, cache⟩
  · simp [Except.map]
  · dsimp only [Except.map]
    rw [ParseCache.lineIndex_fst]
    cases haccepted : r.acceptable desk.file (.ofText desk.file.contents) edits with
    | nil => simp [eq_comm]
    | cons k ks =>
      rcases hreplace : desk.replaceContents
          (Edit.applyAll desk.file.contents ((k :: ks).map (·.1))) with f | written
      · simp only [Desk.replaceContents_cache, hreplace, Except.map]
        constructor
        · intro h
          cases h
        · rintro ⟨accepted, h, -, ⟨rfl, -⟩ | ⟨-, written, hwritten, -⟩⟩
          · cases h
          · cases Except.ok.inj h
            rw [hreplace] at hwritten
            cases hwritten
      · simp only [Desk.replaceContents_cache, hreplace, Except.map]
        constructor
        · intro h
          cases h
          exact ⟨_, rfl, rfl, .inr ⟨List.cons_ne_nil _ _, written, hreplace, rfl⟩⟩
        · rintro ⟨accepted, h, rfl, ⟨rfl, -⟩ | ⟨-, written', hwritten, rfl⟩⟩
          · cases h
          · cases Except.ok.inj h
            cases hreplace.symm.trans hwritten
            rfl

/-- Edits are located in the file that they are made in. -/
theorem mem_planned {f : SourceFile} {cache : ParseCache} {accepted : List (Edit × Location)}
    (h : (r.planned f cache).1 = .ok accepted) {a : Edit × Location} (ha : a ∈ accepted) :
    a.2.file = f.identifier := by
  unfold planned at h
  rcases hproposals : r.proposals f cache with ⟨e | edits, read⟩
  · rw [hproposals] at h
    cases h
  · rw [hproposals] at h
    cases Except.ok.inj h
    have hallowed := Edit.keep_allowed ha
    dsimp only at hallowed
    split at hallowed
    next =>
      rw [← Option.some.inj hallowed]
      exact SourceFile.place_file _ _ _
    next => cases hallowed

theorem makeEdits_keepsTo (r : Rule) (path : Path) : KeepsTo path r.makeEdits where
  file hpath hwork := by
    obtain ⟨accepted, -, -, ⟨-, rfl⟩ | ⟨-, written, hwritten, rfl⟩⟩ := makeEdits_eq_ok_iff.mp hwork
    · exact hpath
    · dsimp only
      rw [Desk.replaceContents_file hwritten]
      exact hpath
  within hpath hwork := by
    obtain ⟨accepted, hplanned, rfl, -⟩ := makeEdits_eq_ok_iff.mp hwork
    intro x hx
    obtain ⟨a, ha, rfl⟩ := List.mem_map.mp hx
    have hfile := mem_planned hplanned (List.mem_reverse.mp ha)
    rw [SourceFile.identifier, hpath] at hfile
    exact decide_eq_true hfile
  distinct hwork hs := by
    obtain ⟨accepted, -, -, ⟨-, rfl⟩ | ⟨-, written, hwritten, rfl⟩⟩ := makeEdits_eq_ok_iff.mp hwork
    · exact hs
    · rcases Desk.replaceContents_eq_ok hwritten with ⟨-, rfl⟩ | ⟨p, store, -, hstore, rfl⟩
      · exact hs
      · exact hs.write hstore
  alike hpath h hwork := by
    obtain ⟨accepted, hplanned, hmade, hcase⟩ := makeEdits_eq_ok_iff.mp hwork
    rw [← h.file, ← h.cache] at hplanned
    rcases hcase with ⟨hnone, rfl⟩ | ⟨hsome, written, hwritten, rfl⟩
    · refine ⟨_, makeEdits_eq_ok_iff.mpr ⟨accepted, hplanned, hmade, .inl ⟨hnone, rfl⟩⟩, ?_⟩
      exact ⟨h.file, by dsimp only; rw [h.file, h.cache], h.store⟩
    · obtain ⟨written', hwritten', hagree⟩ := h.replaceContents hpath hwritten
      rw [← h.file] at hwritten'
      refine ⟨_, makeEdits_eq_ok_iff.mpr
        ⟨accepted, hplanned, hmade, .inr ⟨hsome, written', hwritten', rfl⟩⟩, ?_⟩
      exact ⟨hagree.file, by dsimp only; rw [h.file, h.cache], hagree.store⟩

/-- A rule reports in the file that it sees, whatever it reports. -/
def ReportsInPlace (r : Rule) : Prop :=
  ∀ v found, r.kind.inspect r.settings v = .ok found →
    ∀ x ∈ found, x.location.file = v.file.identifier

theorem view_file {f : SourceFile} {cache : ParseCache} {v : View}
    (h : (r.view f cache).1 = .ok v) : v.file = f := by
  rcases hindex : cache.lineIndex f.contents with ⟨index, read⟩
  simp only [view, hindex] at h
  split at h
  next =>
    rcases htree : read.tree f.dialect f.contents with ⟨e | tree, after⟩
    · rw [htree] at h
      cases h
    · rw [htree] at h
      cases Except.ok.inj h
      rfl
  next =>
    cases Except.ok.inj h
    rfl

theorem diagnose_within (h : r.ReportsInPlace) {f : SourceFile} {cache : ParseCache}
    {found : List Diagnostic} (hfound : (r.diagnose f cache).1 = .ok found) :
    ∀ x ∈ found, x.location.file = f.identifier := by
  rcases hview : r.view f cache with ⟨e | v, after⟩
  · simp only [diagnose, hview] at hfound
    cases hfound
  · simp only [diagnose, hview] at hfound
    have hfile := view_file (congrArg Prod.fst hview)
    rw [← hfile]
    exact h v found hfound

end Rule

namespace Configuration

variable {c : Configuration}

/-- Every rule that runs reports in the file that it sees. -/
def ReportsInPlace (c : Configuration) : Prop :=
  ∀ d rules, c.rulesFor d = .ok rules → ∀ r ∈ rules, r.ReportsInPlace

theorem reportsInPlace_of_kinds
    (registered : ∀ k ∈ c.registry.kinds, ∀ s, Rule.ReportsInPlace ⟨k, s⟩)
    (configured : ∀ r ∈ c.configured, r.ReportsInPlace) : c.ReportsInPlace := by
  intro d rules hrules r hr
  rcases mem_rulesFor hrules hr with h | h
  · exact configured r h
  · exact registered r.kind h r.settings

/-- Rules that come with the tool report in the file that they see. -/
theorem reportsInPlace_of_standard (registry : c.registry = .standard)
    (configured : ∀ r ∈ c.configured, r.kind ∈ Registry.standard.kinds) : c.ReportsInPlace := by
  have hkinds : ∀ k ∈ Registry.standard.kinds, ∀ s, Rule.ReportsInPlace ⟨k, s⟩ := by
    simp only [Registry.standard, List.forall_mem_cons]
    refine ⟨?_, ?_, by simp⟩
    · intro s v found hfound x hx
      cases Except.ok.inj hfound
      obtain ⟨violation, -, rfl⟩ := List.mem_map.mp hx
      exact SourceFile.placeByte_file _ _ _
    · intro s v found hfound x hx
      cases Except.ok.inj hfound
      obtain ⟨offset, -, rfl⟩ := List.mem_map.mp hx
      exact SourceFile.place_file _ _ _
  apply reportsInPlace_of_kinds
  · rw [registry]
    exact hkinds
  · intro r hr
    exact hkinds r.kind (configured r hr) r.settings

variable [Parser]

theorem diagnoseWith_cons (f : SourceFile) (cache : ParseCache) (r : Rule) (rest : List Rule) :
    diagnoseWith f cache (r :: rest) =
      inTurn
        ((r.diagnose f cache).1.map fun found => found.filter fun d =>
            Directive.leaveEnabled f.directives r.identifier d.location,
          (r.diagnose f cache).2)
        fun cache => diagnoseWith f cache rest := by
  rw [diagnoseWith]
  rcases r.diagnose f cache with ⟨e | found, after⟩
  · rfl
  · rcases hrest : diagnoseWith f after rest with ⟨e | more, last⟩ <;>
      simp only [inTurn, Except.map, hrest]

theorem diagnoseWith_within {f : SourceFile} {cache : ParseCache} {rules : List Rule}
    {found : List Diagnostic} (h : ∀ r ∈ rules, r.ReportsInPlace)
    (hfound : (diagnoseWith f cache rules).1 = .ok found) :
    ∀ x ∈ found, x.location.file = f.identifier := by
  induction rules generalizing cache found with
  | nil =>
    cases Except.ok.inj hfound
    exact List.forall_mem_nil _
  | cons r rest ih =>
    obtain ⟨hr, hrest⟩ := List.forall_mem_cons.mp h
    rw [diagnoseWith_cons] at hfound
    obtain ⟨early, between, late, hearly, hlate, rfl⟩ :=
      inTurn_eq_ok_iff.mp (Prod.ext hfound rfl)
    have hkept := congrArg Prod.fst hearly
    rcases hown : (r.diagnose f cache).1 with e | own
    · rw [hown] at hkept
      cases hkept
    · rw [hown] at hkept
      cases Except.ok.inj hkept
      intro x hx
      rcases List.mem_append.mp hx with hx | hx
      · exact Rule.diagnose_within hr hown x (List.mem_filter.mp hx).1
      · exact ih hrest (congrArg Prod.fst hlate) x hx

theorem diagnose_within {f : SourceFile} {cache : ParseCache} {found : List Diagnostic}
    (h : c.ReportsInPlace) (hfound : (c.diagnose f cache).1 = .ok found) :
    ∀ x ∈ found, x.location.file = f.identifier := by
  unfold diagnose at hfound
  cases hrules : c.rulesFor f.dialect with
  | error e => rw [hrules] at hfound; cases hfound
  | ok rules =>
    rw [hrules] at hfound
    exact diagnoseWith_within (h _ _ hrules) hfound

theorem correctWith_keepsTo {rules : List Rule} (h : ∀ r ∈ rules, r.SharesCorrection) (path : Path) :
    KeepsTo path fun desk => correctWith desk rules := by
  induction rules with
  | nil => exact .nothing path
  | cons r rest ih =>
    obtain ⟨hr, hrest⟩ := List.forall_mem_cons.mp h
    have hturns := (r.makeEdits_keepsTo path).inTurn (ih hrest)
    have heq : (fun desk => correctWith desk (r :: rest)) = fun desk =>
        inTurn (r.makeEdits desk) fun desk => correctWith desk rest := by
      funext desk
      rw [correctWith_cons, Rule.correct_of_sharesCorrection hr]
    rw [heq]
    exact hturns

theorem correct_keepsTo (h : c.SharesCorrection) {desk worked : Desk} {made : List Correction}
    {path : Path} (hpath : desk.file.path = some path)
    (hwork : c.correct desk = (.ok made, worked)) :
    (∀ x ∈ made, Project.liesIn (·.location) path x) ∧
      (desk.store.Distinct → worked.store.Distinct) ∧
      ∀ other, desk.Alike path other →
        ∃ worked', c.correct other = (.ok made, worked') ∧ worked.Alike path worked' := by
  unfold correct at hwork ⊢
  cases hrules : c.rulesFor desk.file.dialect with
  | error f => rw [hrules] at hwork; cases hwork
  | ok rules =>
    rw [hrules] at hwork
    have hkeeps := correctWith_keepsTo (h _ _ hrules) path
    refine ⟨hkeeps.within hpath hwork, hkeeps.distinct hwork, fun other halike => ?_⟩
    rw [halike.file, hrules]
    exact hkeeps.alike hpath halike hwork

end Configuration

namespace Project

variable {c : Configuration}

theorem workOn_eq_ok_iff {α : Type} {step : Desk → Except Fault (List α) × Desk}
    {store after : Store} {file : SourceFile} {found : List α} :
    workOn step store file = (.ok found, after) ↔
      ∃ worked, step { file, store } = (.ok found, worked) ∧ worked.store = after := by
  unfold workOn
  rcases step { file, store } with ⟨outcome, worked⟩
  simp

variable [Parser]

/-- How a run diagnoses the file at hand. -/
def diagnosing (c : Configuration) (desk : Desk) : Except Fault (List Diagnostic) × Desk :=
  ((c.diagnose desk.file desk.cache).1, { desk with cache := (c.diagnose desk.file desk.cache).2 })

theorem diagnose_eq (c : Configuration) (store : Store) (paths : List Path) :
    diagnose c store paths =
      (overPaths (diagnosing c) paths store).1.map (Location.sortOn (·.location)) := rfl

theorem confined_diagnosing (c : Configuration) : Confined (diagnosing c) where
  changes store path file _ := .nothing _ store _
  alike agree _ hwork := by
    obtain ⟨worked, hstep, rfl⟩ := workOn_eq_ok_iff.mp hwork
    have hfound := congrArg Prod.fst hstep
    have hworked := congrArg (·.2.store) hstep
    refine ⟨_, Prod.ext hfound rfl, ?_⟩
    rw [← hworked]
    exact agree
  distinct _ hwork hs := by
    obtain ⟨worked, hstep, rfl⟩ := workOn_eq_ok_iff.mp hwork
    rw [← congrArg (·.2.store) hstep]
    exact hs

theorem separate_diagnosing (h : c.ReportsInPlace) : Separate (·.location) (diagnosing c) where
  toConfined := confined_diagnosing c
  within hload hwork := by
    obtain ⟨worked, hstep, -⟩ := workOn_eq_ok_iff.mp hwork
    intro x hx
    have hfile := Configuration.diagnose_within h (congrArg Prod.fst hstep) x hx
    rw [SourceFile.identifier, (load_eq_ok hload).1] at hfile
    exact decide_eq_true hfile

theorem separate_correct (h : c.SharesCorrection) : Separate (·.location) c.correct where
  changes := local_correct h
  alike {s t path file found s'} agree hload hwork := by
    obtain ⟨worked, hstep, rfl⟩ := workOn_eq_ok_iff.mp hwork
    have halike : Desk.Alike path { file, store := s } { file, store := t } := ⟨rfl, rfl, agree⟩
    obtain ⟨-, -, hother⟩ := Configuration.correct_keepsTo h (load_eq_ok hload).1 hstep
    obtain ⟨worked', hstep', hagree⟩ := hother _ halike
    exact ⟨worked'.store, workOn_eq_ok_iff.mpr ⟨worked', hstep', rfl⟩, hagree.store⟩
  distinct hload hwork hs := by
    obtain ⟨worked, hstep, rfl⟩ := workOn_eq_ok_iff.mp hwork
    obtain ⟨-, hdistinct, -⟩ :=
      Configuration.correct_keepsTo h (load_eq_ok hload).1 hstep
    exact hdistinct hs
  within hload hwork := by
    obtain ⟨worked, hstep, -⟩ := workOn_eq_ok_iff.mp hwork
    exact (Configuration.correct_keepsTo h (load_eq_ok hload).1 hstep).1

end Project

end StyleRules
