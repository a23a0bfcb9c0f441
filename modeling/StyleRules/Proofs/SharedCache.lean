import StyleRules.Proofs.Caching
import StyleRules.Proofs.ConfinedRules

namespace StyleRules

theorem ParseCache.namesApart_known :
    NamesApart (· ∈ Dialect.known) := by
  intro d e hd he
  simp only [Dialect.known, List.mem_cons, List.not_mem_nil, or_false] at hd he
  rcases hd with rfl | rfl <;> rcases he with rfl | rfl <;> decide

theorem Project.known_of_load {store : Store} {path : Path} {file : SourceFile}
    (h : load store path = .ok file) : file.dialect ∈ Dialect.known := by
  unfold load at h
  split at h
  next => cases h
  next d hd =>
    rw [(Desk.load_eq_ok h).2.1]
    exact List.mem_of_find?_eq_some hd

variable [Parser]

namespace ParseCache

/-- The cache answers for texts of known dialects as if it parsed them afresh. -/
def Sound (cache : ParseCache) : Prop := ∃ calls, cache.Faithful (· ∈ Dialect.known) calls

theorem sound_empty : Sound {} := ⟨[], faithful_empty _⟩

namespace Sound

variable {cache : ParseCache} (h : cache.Sound)
include h

theorem clear : cache.clear.Sound := by
  obtain ⟨calls, h⟩ := h
  exact ⟨[], h.clear⟩

theorem lineIndex (text : Text) : (cache.lineIndex text).2.Sound := by
  obtain ⟨calls, h⟩ := h
  exact ⟨calls, h.lineIndex text⟩

theorem tree {d : Dialect} (known : d ∈ Dialect.known) (text : Text) :
    (cache.tree d text).1 = parseAfresh d text ∧ (cache.tree d text).2.Sound := by
  obtain ⟨calls, h⟩ := h
  obtain ⟨hanswer, hafter⟩ := h.tree namesApart_known known text
  exact ⟨hanswer, _, hafter⟩

end Sound

/-- All sound caches give one answer, and stay sound. -/
def Steady {β : Type} (ask : ParseCache → β × ParseCache) : Prop :=
  ∃ answer, ∀ cache : ParseCache, cache.Sound →
    ∃ reached : ParseCache, reached.Sound ∧ ask cache = (answer, reached)

theorem Steady.pure {β : Type} (answer : β) : Steady fun cache => (answer, cache) :=
  ⟨answer, fun cache sound => ⟨cache, sound, rfl⟩⟩

theorem Steady.map {β γ : Type} {ask : ParseCache → β × ParseCache} (h : Steady ask)
    (f : β → γ) : Steady fun cache => (f (ask cache).1, (ask cache).2) := by
  obtain ⟨answer, hask⟩ := h
  refine ⟨f answer, fun cache sound => ?_⟩
  obtain ⟨reached, hreached, heq⟩ := hask cache sound
  refine ⟨reached, hreached, ?_⟩
  dsimp only
  rw [heq]

theorem Steady.inTurn {α : Type} {first rest : ParseCache → Except Fault (List α) × ParseCache}
    (hfirst : Steady first) (hrest : Steady rest) :
    Steady fun cache => StyleRules.inTurn (first cache) rest := by
  obtain ⟨answer, hfirst⟩ := hfirst
  obtain ⟨later, hrest⟩ := hrest
  cases answer with
  | error f =>
    refine ⟨.error f, fun cache sound => ?_⟩
    obtain ⟨reached, hreached, heq⟩ := hfirst cache sound
    refine ⟨reached, hreached, ?_⟩
    dsimp only
    rw [heq]
    rfl
  | ok found =>
    refine ⟨later.map (found ++ ·), fun cache sound => ?_⟩
    obtain ⟨between, hbetween, heq⟩ := hfirst cache sound
    obtain ⟨reached, hreached, hlater⟩ := hrest between hbetween
    refine ⟨reached, hreached, ?_⟩
    dsimp only
    rw [heq, StyleRules.inTurn, hlater]

end ParseCache

open ParseCache

namespace Rule

variable {f : SourceFile}

theorem view_steady (r : Rule) (known : f.dialect ∈ Dialect.known) : Steady (r.view f) := by
  unfold view
  by_cases htree : r.kind.needsTree
  · refine ⟨(parseAfresh f.dialect f.contents).map fun tree =>
      { file := f, index := .ofText f.contents, tree }, fun cache sound => ?_⟩
    obtain ⟨hanswer, hafter⟩ := (sound.lineIndex f.contents).tree known f.contents
    refine ⟨_, hafter, ?_⟩
    dsimp only
    rw [if_pos htree, cache.lineIndex_fst, hanswer]
  · refine ⟨.ok { file := f, index := .ofText f.contents, tree := .node [] 0 0 [] },
      fun cache sound => ⟨_, sound.lineIndex f.contents, ?_⟩⟩
    dsimp only
    rw [if_neg htree, cache.lineIndex_fst]

theorem diagnose_steady (r : Rule) (known : f.dialect ∈ Dialect.known) : Steady (r.diagnose f) :=
  (r.view_steady known).map (·.bind (r.kind.inspect r.settings))

theorem proposals_steady (r : Rule) (known : f.dialect ∈ Dialect.known) :
    Steady (r.proposals f) := by
  unfold proposals
  cases r.kind.corrector with
  | none => exact .pure _
  | some c => exact (r.view_steady known).map (·.bind (c.edits r.settings))

end Rule

namespace Configuration

theorem diagnoseWith_steady {f : SourceFile} (known : f.dialect ∈ Dialect.known)
    (rules : List Rule) : Steady fun cache => diagnoseWith f cache rules := by
  induction rules with
  | nil => exact .pure _
  | cons r rest ih =>
    simp only [diagnoseWith_cons]
    exact ((r.diagnose_steady known).map _).inTurn ih

theorem diagnose_steady (c : Configuration) {f : SourceFile} (known : f.dialect ∈ Dialect.known) :
    Steady (c.diagnose f) := by
  unfold diagnose
  cases c.rulesFor f.dialect with
  | error e => exact .pure _
  | ok rules => exact diagnoseWith_steady known rules

end Configuration

/-- Work on a file of a known dialect that does the same through every sound cache. -/
def IgnoresCache {α : Type} (work : Desk → Except Fault (List α) × Desk) : Prop :=
  ∀ desk : Desk, desk.file.dialect ∈ Dialect.known →
    ∃ (outcome : Except Fault (List α)) (worked : Desk), worked.file.dialect ∈ Dialect.known ∧
      ∀ cache : ParseCache, cache.Sound → ∃ reached : ParseCache, reached.Sound ∧
        work { desk with cache } = (outcome, { worked with cache := reached })

theorem IgnoresCache.inTurn {α : Type} {first rest : Desk → Except Fault (List α) × Desk}
    (hfirst : IgnoresCache first) (hrest : IgnoresCache rest) :
    IgnoresCache fun desk => StyleRules.inTurn (first desk) rest := by
  intro desk known
  obtain ⟨outcome, between, hknown, hearly⟩ := hfirst desk known
  cases outcome with
  | error f =>
    refine ⟨.error f, between, hknown, fun cache sound => ?_⟩
    obtain ⟨reached, hreached, heq⟩ := hearly cache sound
    refine ⟨reached, hreached, ?_⟩
    dsimp only
    rw [heq]
    rfl
  | ok early =>
    obtain ⟨outcome, worked, hknown, hlate⟩ := hrest between hknown
    refine ⟨outcome.map (early ++ ·), worked, hknown, fun cache sound => ?_⟩
    obtain ⟨halfway, hhalfway, heq⟩ := hearly cache sound
    obtain ⟨reached, hreached, hrest⟩ := hlate halfway hhalfway
    refine ⟨reached, hreached, ?_⟩
    dsimp only
    rw [heq, StyleRules.inTurn, hrest]

namespace Rule

theorem makeEdits_ignoresCache (r : Rule) : IgnoresCache r.makeEdits := by
  intro desk known
  obtain ⟨proposed, hproposed⟩ := r.proposals_steady known
  cases proposed with
  | error f =>
    refine ⟨.error f, desk, known, fun cache sound => ?_⟩
    obtain ⟨reached, hreached, heq⟩ := hproposed cache sound
    exact ⟨reached, hreached, by simp only [makeEdits, heq]⟩
  | ok edits =>
    cases haccepted : r.acceptable desk.file (.ofText desk.file.contents) edits with
    | nil =>
      refine ⟨.ok [], desk, known, fun cache sound => ?_⟩
      obtain ⟨reached, hreached, heq⟩ := hproposed cache sound
      refine ⟨_, hreached.lineIndex desk.file.contents, ?_⟩
      simp only [makeEdits, heq, lineIndex_fst, haccepted]
    | cons a rest =>
      cases hreplace : desk.replaceContents
          (Edit.applyAll desk.file.contents ((a :: rest).map (·.1))) with
      | error f =>
        refine ⟨.error f, desk, known, fun cache sound => ?_⟩
        obtain ⟨reached, hreached, heq⟩ := hproposed cache sound
        refine ⟨_, hreached.lineIndex desk.file.contents, ?_⟩
        simp only [makeEdits, heq, lineIndex_fst, haccepted, Desk.replaceContents_cache, hreplace,
          Except.map]
      | ok written =>
        refine ⟨.ok ((a :: rest).reverse.map fun a => r.correctionAt a.2), written, ?_,
          fun cache sound => ?_⟩
        · rw [Desk.replaceContents_file hreplace]
          exact known
        · obtain ⟨reached, hreached, heq⟩ := hproposed cache sound
          refine ⟨_, hreached.lineIndex desk.file.contents, ?_⟩
          simp only [makeEdits, heq, lineIndex_fst, haccepted, Desk.replaceContents_cache, hreplace,
            Except.map]

end Rule

namespace Configuration

theorem correctWith_ignoresCache {rules : List Rule} (h : ∀ r ∈ rules, r.SharesCorrection) :
    IgnoresCache fun desk => correctWith desk rules := by
  induction rules with
  | nil => exact fun desk known => ⟨.ok [], desk, known, fun cache sound => ⟨cache, sound, rfl⟩⟩
  | cons r rest ih =>
    obtain ⟨hr, hrest⟩ := List.forall_mem_cons.mp h
    simp only [correctWith_cons, Rule.correct_of_sharesCorrection hr]
    exact r.makeEdits_ignoresCache.inTurn (ih hrest)

theorem correct_ignoresCache {c : Configuration} (h : c.SharesCorrection) :
    IgnoresCache c.correct := by
  intro desk known
  unfold correct
  cases hrules : c.rulesFor desk.file.dialect with
  | error f =>
    refine ⟨.error f, desk, known, fun cache sound => ⟨cache, sound, ?_⟩⟩
    dsimp only
    rw [hrules]
  | ok rules =>
    dsimp only
    rw [hrules]
    exact correctWith_ignoresCache (h _ _ hrules) desk known

end Configuration

namespace Project

theorem diagnosing_ignoresCache (c : Configuration) : IgnoresCache (diagnosing c) := by
  intro desk known
  obtain ⟨answer, hanswer⟩ := c.diagnose_steady known
  refine ⟨answer, desk, known, fun cache sound => ?_⟩
  obtain ⟨reached, hreached, heq⟩ := hanswer cache sound
  refine ⟨reached, hreached, ?_⟩
  unfold diagnosing
  dsimp only
  rw [heq]

section Through

variable {α : Type} {step : Desk → Except Fault (List α) × Desk}

/-- Visits a place with a cache that was used before. It is cleared before a file is read. -/
def visitThrough (step : Desk → Except Fault (List α) × Desk) (path : Path)
    (shared : ParseCache × Store) : Except Fault (List α) × ParseCache × Store :=
  if !shared.2.isFile path then (.ok [], shared)
  else
    match load shared.2 path with
    | .error f => (.error f, shared.1.clear, shared.2)
    | .ok file =>
      let (outcome, desk) := step { file, cache := shared.1.clear, store := shared.2 }
      (outcome, desk.cache, desk.store)

/-- Works on the files at some places one after the other through one cache. -/
def overFilesThrough (step : Desk → Except Fault (List α) × Desk) :
    List Path → ParseCache × Store → Except Fault (List α) × ParseCache × Store
  | [], shared => (.ok [], shared)
  | path :: rest, shared => inTurn (visitThrough step path shared) (overFilesThrough step rest)

def overPathsThrough (step : Desk → Except Fault (List α) × Desk) :
    List Path → ParseCache × Store → Except Fault (List α) × ParseCache × Store
  | [], shared => (.ok [], shared)
  | path :: rest, shared =>
    match candidates shared.2 path with
    | .error f => (.error f, shared)
    | .ok files => inTurn (overFilesThrough step files shared) (overPathsThrough step rest)

/-- The same comes of work with a cache in hand as without, and the cache stays sound. -/
def Matches (through : Except Fault (List α) × ParseCache × Store)
    (worked : Except Fault (List α) × Store) : Prop :=
  through.1 = worked.1 ∧ through.2.1.Sound ∧ through.2.2 = worked.2

theorem Matches.inTurn {through : Except Fault (List α) × ParseCache × Store}
    {worked : Except Fault (List α) × Store}
    {throughRest : ParseCache × Store → Except Fault (List α) × ParseCache × Store}
    {rest : Store → Except Fault (List α) × Store} (h : Matches through worked)
    (hrest : ∀ shared : ParseCache × Store, shared.1.Sound →
      Matches (throughRest shared) (rest shared.2)) :
    Matches (StyleRules.inTurn through throughRest) (StyleRules.inTurn worked rest) := by
  obtain ⟨outcome, cache, store⟩ := through
  obtain ⟨outcome', store'⟩ := worked
  obtain ⟨rfl, hsound, rfl⟩ := h
  cases outcome with
  | error f => exact ⟨rfl, hsound, rfl⟩
  | ok found =>
    obtain ⟨houtcome, hafter, hstore⟩ := hrest (cache, store) hsound
    exact ⟨congrArg (Except.map (found ++ ·)) houtcome, hafter, hstore⟩

variable {shared : ParseCache × Store}

theorem visitThrough_matches (h : IgnoresCache step) (sound : shared.1.Sound) (path : Path) :
    Matches (visitThrough step path shared) (visit step shared.2 path) := by
  unfold visitThrough visit
  split
  next => exact ⟨rfl, sound, rfl⟩
  next =>
    cases hload : load shared.2 path with
    | error f => exact ⟨rfl, sound.clear, rfl⟩
    | ok file =>
      -- The cleared cache and a new one are both sound, so the step does the same with either.
      obtain ⟨outcome, worked, -, hwork⟩ := h { file, store := shared.2 } (known_of_load hload)
      obtain ⟨reached, hreached, heq⟩ := hwork _ sound.clear
      obtain ⟨fresh, -, hfresh⟩ := hwork _ ParseCache.sound_empty
      dsimp only [workOn] at hfresh ⊢
      rw [heq, hfresh]
      exact ⟨rfl, hreached, rfl⟩

theorem overFilesThrough_matches (h : IgnoresCache step) (sound : shared.1.Sound)
    (places : List Path) :
    Matches (overFilesThrough step places shared) (overFiles step places shared.2) := by
  induction places generalizing shared with
  | nil => exact ⟨rfl, sound, rfl⟩
  | cons path rest ih =>
    rw [overFiles_eq_inTurn]
    exact (visitThrough_matches h sound path).inTurn fun _ sound => ih sound

theorem overPathsThrough_matches (h : IgnoresCache step) (sound : shared.1.Sound)
    (paths : List Path) :
    Matches (overPathsThrough step paths shared) (overPaths step paths shared.2) := by
  induction paths generalizing shared with
  | nil => exact ⟨rfl, sound, rfl⟩
  | cons path rest ih =>
    rw [overPaths_cons, overPathsThrough]
    cases candidates shared.2 path with
    | error f => exact ⟨rfl, sound, rfl⟩
    | ok files => exact (overFilesThrough_matches h sound files).inTurn fun _ sound => ih sound

end Through

variable {c : Configuration} {cache : ParseCache}

def diagnoseThrough (c : Configuration) (cache : ParseCache) (store : Store) (paths : List Path) :
    Except Fault (List Diagnostic) :=
  (overPathsThrough (diagnosing c) paths (cache, store)).1.map (Location.sortOn (·.location))

def correctThrough (c : Configuration) (cache : ParseCache) (store : Store) (paths : List Path) :
    Except Fault (List Correction) × Store :=
  let (made, _, store) := overPathsThrough c.correct paths (cache, store)
  (made.map (Location.sortOn (·.location)), store)

/-- What a cache holds of other files makes no difference to the diagnostics. -/
theorem diagnoseThrough_eq (c : Configuration) (sound : cache.Sound) (store : Store)
    (paths : List Path) : diagnoseThrough c cache store paths = diagnose c store paths := by
  have hmatches := @overPathsThrough_matches _ _ _ (cache, store) (diagnosing_ignoresCache c) sound
    paths
  rw [diagnose_eq, diagnoseThrough, hmatches.1]

/-- What a cache holds of other files makes no difference to the corrections. -/
theorem correctThrough_eq (h : c.SharesCorrection) (sound : cache.Sound) (store : Store)
    (paths : List Path) : correctThrough c cache store paths = correct c store paths := by
  obtain ⟨houtcome, -, hstore⟩ := @overPathsThrough_matches _ _ _ (cache, store)
    (Configuration.correct_ignoresCache h) sound paths
  unfold correctThrough correct
  dsimp only
  rw [houtcome, hstore]

end Project

end StyleRules
