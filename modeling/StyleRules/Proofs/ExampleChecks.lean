import StyleRules.Conformance
import StyleRules.Proofs.Caching
import StyleRules.Proofs.Isolation

namespace StyleRules

namespace Rule

variable (r : Rule) (f : SourceFile) (cache : ParseCache)

/-- What is left of diagnostics of a file where its directives leave the rule enabled. -/
def unsuppressed (found : List Diagnostic) : List Diagnostic :=
  found.filter fun d => f.isEnabled r.identifier d.location

variable [Parser]

/-- What a rule sees of a file through a cache without trees depends on the grammar alone. -/
theorem view_fst_of_trees_eq_nil {cache : ParseCache} (h : cache.trees = []) :
    (r.view f cache).1 =
      if r.kind.needsTree then
        ((cache.languageFor f.dialect).bind (ParseCache.parse f.dialect · f.contents)).map fun tree =>
          { file := f, index := .ofText f.contents, tree }
      else .ok { file := f, index := .ofText f.contents, tree := .node [] 0 0 [] } := by
  have hindex := cache.lineIndex_fst f.contents
  obtain ⟨indexes, hcache⟩ := cache.lineIndex_snd f.contents
  have htree := ParseCache.tree_fst_of_trees_eq_nil
    (show ({ cache with indexes } : ParseCache).trees = [] from h) f.dialect f.contents
  unfold view
  dsimp only
  rw [hindex, hcache]
  split
  next =>
    dsimp only
    rw [htree]
    rfl
  next => rfl

theorem languageFor_view : (r.view f cache).2.languageFor f.dialect =
    cache.languageFor f.dialect := by
  unfold view
  dsimp only
  split
  next => rw [ParseCache.languageFor_tree, ParseCache.languageFor_lineIndex]
  next => exact cache.languageFor_lineIndex _ _

theorem diagnose_eq_bind : r.diagnose f cache =
    ((r.view f cache).1.bind (r.kind.inspect r.settings), (r.view f cache).2) := rfl

theorem languageFor_diagnose : (r.diagnose f cache).2.languageFor f.dialect =
    cache.languageFor f.dialect := r.languageFor_view f cache

/-- Through cleared caches that have the same grammar a rule reports the same. -/
theorem diagnose_clear_congr {a b : ParseCache}
    (h : a.languageFor f.dialect = b.languageFor f.dialect) :
    (r.diagnose f a.clear).1 = (r.diagnose f b.clear).1 := by
  have ha : a.clear.trees = [] := rfl
  have hb : b.clear.trees = [] := rfl
  rw [diagnose_eq_bind, diagnose_eq_bind, view_fst_of_trees_eq_nil r f ha,
    view_fst_of_trees_eq_nil r f hb, ParseCache.languageFor_clear, ParseCache.languageFor_clear, h]

end Rule

namespace Configuration

theorem diagnose_snd_of_rulesFor [Parser] {c : Configuration} {r : Rule} {f : SourceFile}
    {cache : ParseCache} (h : c.rulesFor f.dialect = .ok [r]) :
    (c.diagnose f cache).2 = (r.diagnose f cache).2 := by
  unfold diagnose
  rw [h]
  simp only [diagnoseWith]
  cases hr : r.diagnose f cache with
  | mk outcome after =>
    cases outcome with
    | error e => rfl
    | ok found => rfl

end Configuration

namespace Conformance

/-- The file that an example is checked as: its text without markers, in memory. -/
def exampleFile (d : Dialect) (example_ : Text) : SourceFile :=
  { contents := (Marked.strip example_).text, dialect := d }

/-- Gathering findings that do not depend on what was worked on before concatenates them. -/
theorem gather_eq_flatMap {α β : Type} {step : α → Bench → Except Fault (List β) × Bench}
    {found : α → List β} {Kept : Bench → Prop} {items : List α}
    (h : ∀ a ∈ items, ∀ bench, Kept bench →
      ∃ after, step a bench = (.ok (found a), after) ∧ Kept after)
    {bench : Bench} (kept : Kept bench) :
    ∃ after, gather step items bench = (.ok (items.flatMap found), after) ∧ Kept after := by
  induction items generalizing bench with
  | nil => exact ⟨bench, rfl, kept⟩
  | cons a rest ih =>
    obtain ⟨next, hstep, hnext⟩ := h a (by simp) bench kept
    obtain ⟨after, hrest, hafter⟩ := ih (fun b hb => h b (List.mem_cons_of_mem a hb)) hnext
    refine ⟨after, ?_, hafter⟩
    simp only [gather, hstep, hrest, List.flatMap_cons]

section Gather

variable {α β : Type} {step : α → Bench → Except Fault (List β) × Bench} {Kept : Bench → Prop}
  {items : List α}

/-- Where the outcome of each item does not depend on what was worked on before, gathering is
going through the outcomes. -/
theorem gather_eq_mapM {outcome : α → Except Fault (List β)}
    (h : ∀ a ∈ items, ∀ bench, Kept bench →
      (step a bench).1 = outcome a ∧ Kept (step a bench).2)
    {bench : Bench} (kept : Kept bench) :
    (gather step items bench).1 = (items.mapM outcome).map List.flatten ∧
      Kept (gather step items bench).2 := by
  induction items generalizing bench with
  | nil => exact ⟨rfl, kept⟩
  | cons a rest ih =>
    obtain ⟨hfirst, hnext⟩ := h a List.mem_cons_self bench kept
    have hrest := ih (fun b hb => h b (List.mem_cons_of_mem a hb)) hnext
    cases hstep : step a bench with
    | mk result next =>
      rw [hstep] at hfirst hnext hrest
      rw [List.mapM_cons, ← hfirst]
      simp only [gather, hstep]
      cases result with
      | error f => exact ⟨rfl, hnext⟩
      | ok found =>
        obtain ⟨hmore, hkept⟩ := hrest
        dsimp only at hmore hkept ⊢
        cases hgather : gather step rest next with
        | mk more last =>
          rw [hgather] at hmore hkept
          dsimp only at hmore hkept ⊢
          cases hall : rest.mapM outcome with
          | error f =>
            rw [hall] at hmore
            cases hmore
            exact ⟨rfl, hkept⟩
          | ok all =>
            rw [hall] at hmore
            cases hmore
            exact ⟨rfl, hkept⟩

end Gather

theorem mapM_map {α β γ : Type} (f : α → Except Fault β) (g : β → γ) (items : List α) :
    items.mapM (fun a => (f a).map g) = (items.mapM f).map (List.map g) := by
  induction items with
  | nil => rfl
  | cons a rest ih =>
    rw [List.mapM_cons, List.mapM_cons, ih]
    cases f a with
    | error e => rfl
    | ok b =>
      cases rest.mapM f with
      | error e => rfl
      | ok bs => rfl

variable [Parser]

/-- What a rule is left with of the diagnostics of a text, through a cache that is cleared
first. -/
def leftOn (r : Rule) (d : Dialect) (cache : ParseCache) (text : Text) :
    Except Fault (List Diagnostic) :=
  let file : SourceFile := { contents := text, dialect := d }
  (r.diagnose file cache.clear).1.map (r.unsuppressed file)

/-- Under the configuration that isolates a rule, the diagnostics of a text depend on the grammar
of the dialect only, and looking for them does not change it. -/
theorem violations_eq_leftOn {c : Configuration} {r : Rule} {d : Dialect} {cache : ParseCache}
    {now : Bench} (isolated : c.Isolates r) (dialect : r.kind.dialect.name = d.name)
    (h : now.cache.languageFor d = cache.languageFor d) (text : Text) :
    (violations c d text now).1 = leftOn r d cache text ∧
      (violations c d text now).2.cache.languageFor d = cache.languageFor d := by
  let file : SourceFile := { contents := text, dialect := d }
  have hrules : c.rulesFor file.dialect = .ok [r] := isolated.rulesFor dialect
  have hfst := @Configuration.diagnose_of_rulesFor _ c r file now.cache.clear hrules
  have hsnd := @Configuration.diagnose_snd_of_rulesFor _ c r file now.cache.clear hrules
  have hsame : (r.diagnose file now.cache.clear).1 = (r.diagnose file cache.clear).1 :=
    r.diagnose_clear_congr file h
  constructor
  · show (c.diagnose file now.cache.clear).1 = _
    rw [hfst, hsame]
    rfl
  · show (c.diagnose file now.cache.clear).2.languageFor d = _
    rw [hsnd]
    exact (r.languageFor_diagnose file now.cache.clear).trans h

/-- Under the configuration that isolates a rule, a text has the diagnostics of that rule where it
is enabled, and looking for them does not change the grammar of the dialect. -/
theorem violations_of_isolated {c : Configuration} {r : Rule} {d : Dialect} {text : Text}
    {bench : Bench} {found : List Diagnostic} (isolated : c.Isolates r)
    (dialect : r.kind.dialect.name = d.name)
    (hfound : (r.diagnose { contents := text, dialect := d } bench.cache.clear).1 = .ok found) :
    ∃ after,
      violations c d text bench =
        (.ok (r.unsuppressed { contents := text, dialect := d } found), after) ∧
      after.cache.languageFor d = bench.cache.languageFor d := by
  obtain ⟨hleft, hkept⟩ :=
    @violations_eq_leftOn _ c r d bench.cache bench isolated dialect rfl text
  have hunsuppressed : leftOn r d bench.cache text =
      .ok (r.unsuppressed { contents := text, dialect := d } found) := by
    rw [leftOn, hfound]
    rfl
  exact ⟨_, Prod.ext (hleft.trans hunsuppressed) rfl, hkept⟩

end Conformance

end StyleRules
