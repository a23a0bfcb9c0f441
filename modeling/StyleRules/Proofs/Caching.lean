import StyleRules.Proofs.Persistence
import Mathlib.Data.Finset.Card
import StyleRules.SyntaxTree.Comparison

namespace StyleRules

namespace ParseCache

section Kept

variable (cache : ParseCache) (d : Dialect) (l : Language)

/-- Loading a grammar changes nothing in a cache but the languages. -/
theorem keepLanguage_eq : ∃ languages, cache.keepLanguage d l = { cache with languages } := by
  unfold keepLanguage
  split
  next => exact ⟨cache.languages, rfl⟩
  next => exact ⟨_, rfl⟩

@[simp]
theorem trees_keepLanguage : (cache.keepLanguage d l).trees = cache.trees := by
  obtain ⟨languages, h⟩ := cache.keepLanguage_eq d l
  rw [h]

theorem keepLanguage_missed (misses : Nat) :
    ({ cache with misses } : ParseCache).keepLanguage d l =
      { cache.keepLanguage d l with misses } := by
  unfold keepLanguage
  split <;> rfl

theorem mem_languages_keepLanguage {cache : ParseCache} {d : Dialect} {l : Language}
    {entry : Text × Language} (h : entry ∈ (cache.keepLanguage d l).languages) :
    entry ∈ cache.languages ∨ entry = (d.name, l) := by
  unfold keepLanguage at h
  split at h
  next => exact .inl h
  next => exact (List.mem_cons.mp h).symm

/-- The grammar that a text was parsed by is the one that the next text is parsed by. -/
theorem languageFor_keepLanguage {cache : ParseCache} {d : Dialect} {l : Language}
    (h : cache.languageFor d = .ok l) : (cache.keepLanguage d l).languageFor d = .ok l := by
  unfold keepLanguage
  split
  next => exact h
  next => simp [languageFor]

end Kept

@[simp]
theorem languageFor_clear (cache : ParseCache) (d : Dialect) :
    cache.clear.languageFor d = cache.languageFor d := rfl

theorem lineIndex_snd (cache : ParseCache) (text : Text) :
    ∃ indexes, (cache.lineIndex text).2 = { cache with indexes } := by
  unfold lineIndex
  split
  next => exact ⟨cache.indexes, rfl⟩
  next => exact ⟨_, rfl⟩

theorem languageFor_lineIndex (cache : ParseCache) (d : Dialect) (text : Text) :
    (cache.lineIndex text).2.languageFor d = cache.languageFor d := by
  obtain ⟨indexes, h⟩ := cache.lineIndex_snd text
  rw [h]
  rfl

variable [Parser]

/-- What parsing a text gives without a cache. -/
def parseAfresh (d : Dialect) (text : Text) : Except Fault SyntaxTree :=
  (load d).bind (parse d · text)

/-- A cache answers from its trees, or it fails to load the grammar, or the text does not parse, or
it parses and the tree is kept. -/
theorem tree_cases (cache : ParseCache) (d : Dialect) (text : Text) :
    (∃ t, ((d.name, text), t) ∈ cache.trees ∧
        cache.tree d text = (.ok t, { cache with hits := cache.hits + 1 })) ∨
      ((d.name, text) ∉ cache.trees.map (·.1) ∧
        ((∃ f, cache.languageFor d = .error f ∧
            cache.tree d text = (.error f, { cache with misses := cache.misses + 1 })) ∨
          ∃ l, cache.languageFor d = .ok l ∧
            ((∃ f, parse d l text = .error f ∧
                cache.tree d text =
                  (.error f, { cache.keepLanguage d l with misses := cache.misses + 1 })) ∨
              ∃ t, parse d l text = .ok t ∧
                cache.tree d text =
                  (.ok t,
                    { cache.keepLanguage d l with
                      misses := cache.misses + 1
                      trees := ((d.name, text), t) :: cache.trees })))) := by
  unfold tree
  split
  next key t hfind =>
    left
    have hkey : key = (d.name, text) := by simpa using List.find?_some hfind
    exact ⟨t, hkey ▸ List.mem_of_find?_eq_some hfind, rfl⟩
  next hfind =>
    right
    refine ⟨?_, ?_⟩
    · intro hmem
      obtain ⟨entry, hentry, hkey⟩ := List.mem_map.mp hmem
      have := List.find?_eq_none.mp hfind entry hentry
      simp [hkey] at this
    have hlanguage : ({ cache with misses := cache.misses + 1 } : ParseCache).languageFor d =
        cache.languageFor d := rfl
    simp only [hlanguage]
    cases hl : cache.languageFor d with
    | error f => exact .inl ⟨f, rfl, rfl⟩
    | ok l =>
      refine .inr ⟨l, rfl, ?_⟩
      simp only [keepLanguage_missed]
      cases hparse : parse d l text with
      | error f => exact .inl ⟨f, rfl, rfl⟩
      | ok t => exact .inr ⟨t, rfl, by rw [trees_keepLanguage]⟩

/-- Asking for trees of a dialect does not change the grammar that they are parsed by. -/
theorem languageFor_tree (cache : ParseCache) (d : Dialect) (text : Text) :
    (cache.tree d text).2.languageFor d = cache.languageFor d := by
  rcases cache.tree_cases d text with ⟨t, -, h⟩ | ⟨-, ⟨f, -, h⟩ | ⟨l, hl, ⟨f, -, h⟩ | ⟨t, -, h⟩⟩⟩
  · rw [h]
    rfl
  · rw [h]
    rfl
  · rw [h, hl]
    exact languageFor_keepLanguage hl
  · rw [h, hl]
    exact languageFor_keepLanguage hl

/-- A cache without trees parses. -/
theorem tree_fst_of_trees_eq_nil {cache : ParseCache} (h : cache.trees = []) (d : Dialect)
    (text : Text) : (cache.tree d text).1 = (cache.languageFor d).bind (parse d · text) := by
  rcases cache.tree_cases d text with
    ⟨t, hmem, -⟩ | ⟨-, ⟨f, hf, ht⟩ | ⟨l, hl, ⟨f, hf, ht⟩ | ⟨t, hf, ht⟩⟩⟩
  · rw [h] at hmem
    cases hmem
  · rw [ht, hf]
    rfl
  · rw [ht, hl]
    exact hf.symm
  · rw [ht, hl]
    exact hf.symm

def parses (call : Dialect × Text) : Bool := (parseAfresh call.1 call.2).isOk

/-- What trees are kept under for those of the questions that can be answered: the name of the
dialect and the text. -/
def parsedKeys (calls : List (Dialect × Text)) : List (Text × Text) :=
  (calls.filter parses).map fun call => (call.1.name, call.2)

/-- How many questions cannot be answered. -/
def failures (calls : List (Dialect × Text)) : Nat := calls.countP (!parses ·)

theorem parses_of_ok {d : Dialect} {text : Text} {t : SyntaxTree}
    (h : parseAfresh d text = .ok t) : parses (d, text) = true := by
  simp [parses, h, Except.isOk, Except.toBool]

theorem parses_of_error {d : Dialect} {text : Text} {f : Fault}
    (h : parseAfresh d text = .error f) : parses (d, text) = false := by
  simp [parses, h, Except.isOk, Except.toBool]

theorem mem_parsedKeys_append {calls : List (Dialect × Text)} {call : Dialect × Text}
    {key : Text × Text} : key ∈ parsedKeys (calls ++ [call]) ↔
      key ∈ parsedKeys calls ∨ (parses call ∧ key = (call.1.name, call.2)) := by
  by_cases hcall : parses call <;> simp [parsedKeys, hcall, or_comm]

theorem failures_append (calls : List (Dialect × Text)) (call : Dialect × Text) :
    failures (calls ++ [call]) = failures calls + if parses call then 0 else 1 := by
  by_cases hcall : parses call <;> simp [failures, hcall]

/-- The cache holds what parsing afresh gives, for the texts of dialects in use that have been
asked for since it was cleared, and its counts are those of the questions. -/
structure Faithful (used : Dialect → Prop) (cache : ParseCache) (calls : List (Dialect × Text)) :
    Prop where
  languages : ∀ d, used d → ∀ g, (d.name, g) ∈ cache.languages → load d = .ok g
  trees : ∀ d, used d → ∀ text t, ((d.name, text), t) ∈ cache.trees →
    parseAfresh d text = .ok t
  distinct : (cache.trees.map (·.1)).Nodup
  keys : ∀ key, key ∈ cache.trees.map (·.1) ↔ key ∈ parsedKeys calls
  hits_add_misses : cache.hits + cache.misses = calls.length
  misses_eq : cache.misses = cache.size + failures calls

/-- No two dialects in use share a name. -/
def NamesApart (used : Dialect → Prop) : Prop :=
  ∀ d e, used d → used e → d.name = e.name → d = e

section Faithful

variable {used : Dialect → Prop} {cache : ParseCache} {calls : List (Dialect × Text)}

theorem faithful_empty (used : Dialect → Prop) : Faithful used .empty [] where
  languages := by
    intro d _ g hg
    cases hg
  trees := by
    intro d _ text t ht
    cases ht
  distinct := List.nodup_nil
  keys := fun _ => Iff.rfl
  hits_add_misses := rfl
  misses_eq := rfl

/-- Clearing forgets the trees and the questions, but the languages stay right. -/
theorem Faithful.clear (h : Faithful used cache calls) : Faithful used cache.clear [] where
  languages := h.languages
  trees := by
    intro d _ text t ht
    cases ht
  distinct := List.nodup_nil
  keys := fun _ => Iff.rfl
  hits_add_misses := rfl
  misses_eq := rfl

theorem Faithful.lineIndex (h : Faithful used cache calls) (text : Text) :
    Faithful used (cache.lineIndex text).2 calls := by
  obtain ⟨indexes, heq⟩ := cache.lineIndex_snd text
  rw [heq]
  exact ⟨h.languages, h.trees, h.distinct, h.keys, h.hits_add_misses, h.misses_eq⟩

/-- A dialect in use is parsed by its own grammar. -/
theorem Faithful.languageFor_eq (h : Faithful used cache calls) {d : Dialect} (hd : used d) :
    cache.languageFor d = load d := by
  unfold languageFor
  split
  next name g hfind =>
    have hname : name = d.name := by simpa using List.find?_some hfind
    have hmem := List.mem_of_find?_eq_some hfind
    rw [hname] at hmem
    exact (h.languages d hd g hmem).symm
  next => rfl

/-- Loading the grammar of a dialect in use keeps the grammars right. -/
theorem Faithful.languages_keepLanguage (h : Faithful used cache calls)
    (apart : NamesApart used) {d : Dialect} (hd : used d) {l : Language} (hl : load d = .ok l) :
    ∀ e, used e → ∀ g, (e.name, g) ∈ (cache.keepLanguage d l).languages → load e = .ok g := by
  intro e he g hg
  rcases mem_languages_keepLanguage hg with hold | hnew
  · exact h.languages e he g hold
  · obtain ⟨hname, rfl⟩ := Prod.mk.inj hnew
    rwa [apart e d he hd hname]

/-- A question without an answer adds no key. -/
theorem mem_parsedKeys_append_of_error {d : Dialect} {text : Text} {f : Fault}
    (h : parseAfresh d text = .error f) (key : Text × Text) :
    key ∈ parsedKeys (calls ++ [(d, text)]) ↔ key ∈ parsedKeys calls := by
  simp [mem_parsedKeys_append, parses_of_error h]

variable {d : Dialect} {text : Text} {languages : List (Text × Language)}

/-- A cache stays faithful when it answers from its trees. -/
theorem Faithful.found (h : Faithful used cache calls) {t : SyntaxTree}
    (hmem : ((d.name, text), t) ∈ cache.trees) (hfresh : parseAfresh d text = .ok t) :
    Faithful used { cache with hits := cache.hits + 1 } (calls ++ [(d, text)]) := by
  have hcalls := h.hits_add_misses
  have hkey := (h.keys _).mp (List.mem_map_of_mem hmem)
  have hfailures := failures_append calls (d, text)
  rw [parses_of_ok hfresh, if_pos rfl] at hfailures
  refine ⟨h.languages, h.trees, h.distinct, ?_, ?_, ?_⟩
  · intro key
    rw [h.keys key, mem_parsedKeys_append]
    constructor
    · exact Or.inl
    · rintro (hold | ⟨-, rfl⟩)
      · exact hold
      · exact hkey
  · rw [List.length_append, List.length_singleton]
    dsimp only
    omega
  · rw [hfailures]
    exact h.misses_eq

/-- A cache stays faithful when a question has no answer. -/
theorem Faithful.missed (h : Faithful used cache calls) {f : Fault}
    (right : ∀ e, used e → ∀ g, (e.name, g) ∈ languages → load e = .ok g)
    (hfresh : parseAfresh d text = .error f) :
    Faithful used { cache with languages, misses := cache.misses + 1 } (calls ++ [(d, text)]) := by
  have hcalls := h.hits_add_misses
  have hmisses := h.misses_eq
  have hfailures := failures_append calls (d, text)
  rw [parses_of_error hfresh, if_neg Bool.false_ne_true] at hfailures
  refine ⟨right, h.trees, h.distinct, ?_, ?_, ?_⟩
  · intro key
    rw [h.keys key, mem_parsedKeys_append_of_error hfresh]
  · rw [List.length_append, List.length_singleton]
    dsimp only
    omega
  · simp only [size] at hmisses ⊢
    omega

/-- A cache stays faithful when it keeps a tree under a new key. -/
theorem Faithful.kept (h : Faithful used cache calls) (apart : NamesApart used) (hd : used d)
    {t : SyntaxTree} (right : ∀ e, used e → ∀ g, (e.name, g) ∈ languages → load e = .ok g)
    (habsent : (d.name, text) ∉ cache.trees.map (·.1)) (hfresh : parseAfresh d text = .ok t) :
    Faithful used
      { cache with
        languages
        misses := cache.misses + 1
        trees := ((d.name, text), t) :: cache.trees }
      (calls ++ [(d, text)]) := by
  have hcalls := h.hits_add_misses
  have hmisses := h.misses_eq
  have hparses := parses_of_ok hfresh
  have hfailures := failures_append calls (d, text)
  rw [hparses, if_pos rfl] at hfailures
  refine ⟨right, ?_, List.nodup_cons.mpr ⟨habsent, h.distinct⟩, ?_, ?_, ?_⟩
  · intro e he other t' ht'
    rcases List.mem_cons.mp ht' with hnew | hold
    · obtain ⟨hkey, rfl⟩ := Prod.mk.inj hnew
      obtain ⟨hname, rfl⟩ := Prod.mk.inj hkey
      rwa [apart e d he hd hname]
    · exact h.trees e he other t' hold
  · intro key
    rw [List.map_cons, List.mem_cons, h.keys key, mem_parsedKeys_append, hparses]
    simp [or_comm]
  · rw [List.length_append, List.length_singleton]
    dsimp only
    omega
  · simp only [size, List.length_cons] at hmisses ⊢
    omega

/-- A question for a tree is answered as if there were no cache, and the cache stays faithful. -/
theorem Faithful.tree (h : Faithful used cache calls) (apart : NamesApart used) (hd : used d)
    (text : Text) :
    (cache.tree d text).1 = parseAfresh d text ∧
      Faithful used (cache.tree d text).2 (calls ++ [(d, text)]) := by
  rcases cache.tree_cases d text with ⟨t, hmem, heq⟩ |
    ⟨habsent, ⟨f, hf, heq⟩ | ⟨l, hl, hparse⟩⟩
  · have hfresh := h.trees d hd text t hmem
    rw [heq, hfresh]
    exact ⟨rfl, h.found hmem hfresh⟩
  · rw [h.languageFor_eq hd] at hf
    have hfresh : parseAfresh d text = .error f := by
      rw [parseAfresh, hf]
      rfl
    rw [heq, hfresh]
    exact ⟨rfl, h.missed h.languages hfresh⟩
  · rw [h.languageFor_eq hd] at hl
    have hfresh : parseAfresh d text = parse d l text := by
      rw [parseAfresh, hl]
      rfl
    have right := h.languages_keepLanguage apart hd hl
    obtain ⟨languages, hkeep⟩ := cache.keepLanguage_eq d l
    rw [hkeep] at right hparse
    rw [hfresh]
    rcases hparse with ⟨f, hf, heq⟩ | ⟨t, ht, heq⟩
    · rw [heq, hf]
      exact ⟨rfl, h.missed right (hfresh.trans hf)⟩
    · rw [heq, ht]
      exact ⟨rfl, h.kept apart hd right habsent (hfresh.trans ht)⟩

/-- A faithful cache holds as many trees as there are different keys of texts that could be
parsed. -/
theorem Faithful.size_eq (h : Faithful used cache calls) :
    cache.size = (parsedKeys calls).toFinset.card := by
  have hset : (cache.trees.map (·.1)).toFinset = (parsedKeys calls).toFinset := by
    ext key
    rw [List.mem_toFinset, List.mem_toFinset, h.keys key]
  rw [← hset, List.toFinset_card_of_nodup h.distinct, List.length_map, size]

end Faithful

end ParseCache

/-- Files, each under a number, that read through one cache and are kept in one store. -/
structure Workspace where
  files : Nat → SourceFile
  cache : ParseCache := {}
  store : Store := {}

namespace Workspace

/-- What is done with the files and the cache. -/
inductive Act where
  | tree (file : Nat)
  | lineIndex (file : Nat)
  | place (file : Nat) (offset : Int)
  | placeByte (file : Nat) (offset : Int)
  | replace (file : Nat) (contents : Text)
  | clear

inductive Answer where
  | tree (outcome : Except Fault SyntaxTree)
  | lineIndex (index : LineIndex)
  | place (l : Location)
  | replaced (outcome : Except Fault Unit)
  | cleared

variable (w : Workspace)

/-- A file of the workspace at hand. -/
def desk (file : Nat) : Desk := { file := w.files file, cache := w.cache, store := w.store }

/-- The line index that the cache gives for a file. -/
def indexOf (file : Nat) : LineIndex := (w.cache.lineIndex (w.files file).contents).1

theorem indexOf_eq (file : Nat) : w.indexOf file = .ofText (w.files file).contents :=
  w.cache.lineIndex_fst _

/-- The workspace after the cache was asked for the line index of a file. -/
def indexed (file : Nat) : Workspace :=
  { w with cache := (w.cache.lineIndex (w.files file).contents).2 }

open ParseCache

section Acts

variable [Parser]

def act : Act → Answer × Workspace
  | .tree file =>
    let (outcome, cache) := w.cache.tree (w.files file).dialect (w.files file).contents
    (.tree outcome, { w with cache })
  | .lineIndex file => (.lineIndex (w.indexOf file), w.indexed file)
  | .place file offset =>
    (.place (SourceFile.place (w.files file).identifier (w.indexOf file) offset), w.indexed file)
  | .placeByte file offset =>
    (.place (SourceFile.placeByte (w.files file).identifier (w.indexOf file) offset),
      w.indexed file)
  | .replace file contents =>
    match (w.desk file).replaceContents contents with
    | .error f => (.replaced (.error f), w)
    | .ok desk =>
      (.replaced (.ok ()),
        { files := fun n => if n = file then desk.file else w.files n
          cache := desk.cache
          store := desk.store })
  | .clear => (.cleared, { w with cache := w.cache.clear })

def run (w : Workspace) : List Act → Workspace
  | [] => w
  | a :: rest => (w.act a).2.run rest

/-- The answer that there would be to an act without a cache. -/
def answerAfresh : Act → Answer
  | .tree file => .tree (ParseCache.parseAfresh (w.files file).dialect (w.files file).contents)
  | .lineIndex file => .lineIndex (.ofText (w.files file).contents)
  | .place file offset =>
    .place (SourceFile.place (w.files file).identifier (.ofText (w.files file).contents) offset)
  | .placeByte file offset =>
    .place (SourceFile.placeByte (w.files file).identifier (.ofText (w.files file).contents) offset)
  | .replace file contents =>
    .replaced (((w.desk file).replaceContents contents).map fun _ => ())
  | .clear => .cleared

/-- The questions for a tree since the cache was last cleared, after an act. -/
def callsAfter (calls : List (Dialect × Text)) : Act → List (Dialect × Text)
  | .tree file => calls ++ [((w.files file).dialect, (w.files file).contents)]
  | .clear => []
  | _ => calls

/-- The questions for a tree since the cache was last cleared, after acts one after the other. -/
def callsSince (w : Workspace) (calls : List (Dialect × Text)) : List Act → List (Dialect × Text)
  | [] => calls
  | a :: rest => (w.act a).2.callsSince (w.callsAfter calls a) rest

/-- Some file is of the dialect. -/
def Uses (d : Dialect) : Prop := ∃ file, (w.files file).dialect = d

variable {w : Workspace}

/-- A replacement gives one file new contents or nothing at all, and leaves the cache alone. -/
theorem act_replace (w : Workspace) (file : Nat) (contents : Text) :
    (∃ f, (w.desk file).replaceContents contents = .error f ∧
        w.act (.replace file contents) = (.replaced (.error f), w)) ∨
      ∃ written store, (w.desk file).replaceContents contents = .ok written ∧
        w.act (.replace file contents) = (.replaced (.ok ()),
          { files := fun n => if n = file then { w.files file with contents } else w.files n
            cache := w.cache
            store }) := by
  simp only [act]
  cases hw : (w.desk file).replaceContents contents with
  | error f => exact .inl ⟨f, rfl, rfl⟩
  | ok written =>
    right
    rcases Desk.replaceContents_eq_ok hw with ⟨-, rfl⟩ | ⟨path, store, -, -, rfl⟩
    · exact ⟨_, w.store, rfl, rfl⟩
    · exact ⟨_, store, rfl, rfl⟩

/-- No act gives a file another dialect. -/
theorem uses_act (a : Act) : (w.act a).2.Uses = w.Uses := by
  cases a with
  | replace file contents =>
    rcases w.act_replace file contents with ⟨f, -, heq⟩ | ⟨written, store, -, heq⟩
    · rw [heq]
    · rw [heq]
      have hdialect : ∀ n, (if n = file then { w.files file with contents } else w.files n).dialect
          = (w.files n).dialect := by
        intro n
        split
        next hn => rw [hn]
        next => rfl
      funext d
      simp only [Uses, hdialect]
  | _ => rfl

/-- An act is answered as if there were no cache, and the cache stays faithful. -/
theorem act_faithful {calls : List (Dialect × Text)} (apart : NamesApart w.Uses)
    (h : Faithful w.Uses w.cache calls) (a : Act) :
    (w.act a).1 = w.answerAfresh a ∧
      Faithful (w.act a).2.Uses (w.act a).2.cache (w.callsAfter calls a) := by
  rw [uses_act]
  cases a with
  | tree file =>
    obtain ⟨hanswer, hfaithful⟩ := h.tree apart ⟨file, rfl⟩ (w.files file).contents
    exact ⟨congrArg Answer.tree hanswer, hfaithful⟩
  | lineIndex file => exact ⟨congrArg Answer.lineIndex (w.indexOf_eq file), h.lineIndex _⟩
  | place file offset =>
    refine ⟨?_, h.lineIndex _⟩
    rw [act, answerAfresh, indexOf_eq]
  | placeByte file offset =>
    refine ⟨?_, h.lineIndex _⟩
    rw [act, answerAfresh, indexOf_eq]
  | replace file contents =>
    rcases w.act_replace file contents with ⟨f, hw, heq⟩ | ⟨written, store, hw, heq⟩
    · rw [heq, answerAfresh, hw]
      exact ⟨rfl, h⟩
    · rw [heq, answerAfresh, hw]
      exact ⟨rfl, h⟩
  | clear => exact ⟨rfl, h.clear⟩

theorem run_faithful_from {calls : List (Dialect × Text)} (apart : NamesApart w.Uses)
    (h : Faithful w.Uses w.cache calls) (acts : List Act) :
    NamesApart (w.run acts).Uses ∧
      Faithful (w.run acts).Uses (w.run acts).cache (w.callsSince calls acts) := by
  induction acts generalizing w calls with
  | nil => exact ⟨apart, h⟩
  | cons a rest ih =>
    obtain ⟨-, hnext⟩ := act_faithful apart h a
    exact ih (by rw [uses_act]; exact apart) hnext

/-- Whatever has been asked of a new cache that files share, and however they have changed since,
every act is answered as if there were no cache. -/
theorem run_answers_afresh (created : w.cache = .empty) (apart : NamesApart w.Uses)
    (acts : List Act) :
    let now := w.run acts
    let calls := w.callsSince [] acts
    (∀ a, (now.act a).1 = now.answerAfresh a) ∧
      now.cache.hits + now.cache.misses = calls.length ∧
      now.cache.size = (parsedKeys calls).toFinset.card ∧
      now.cache.misses = now.cache.size + failures calls := by
  intro now calls
  have hstart : Faithful w.Uses w.cache [] := by
    rw [created]
    exact faithful_empty w.Uses
  obtain ⟨hapart, hnow⟩ := run_faithful_from apart hstart acts
  refine ⟨?_, hnow.hits_add_misses, hnow.size_eq, hnow.misses_eq⟩
  intro a
  exact (act_faithful hapart hnow a).1

end Acts

open scoped Comparison

theorem run_answers_afresh_mixed :
    let w : Workspace :=
      { files := fun n =>
          if n = 0 then { contents := "a\r\nb".toList }
          else { contents := "let a".toList, dialect := .swift } }
    let acts : List Act :=
      [.tree 0, .clear, .tree 0, .tree 0, .tree 1, .lineIndex 0, .replace 0 "a == None\nb".toList,
        .tree 0]
    w.cache = .empty ∧ NamesApart w.Uses ∧
      ((w.run acts).act (.place 0 10)).1 = .place (.point none 2 1) ∧
      ((w.run acts).act (.tree 1)).1 = .tree (.error (.noGrammar "swift".toList)) ∧
      (w.run acts).cache.hits + (w.run acts).cache.misses = 4 ∧
      (w.run acts).cache.size = 2 ∧ (w.run acts).cache.misses = 3 := by
  intro w acts
  have apart : NamesApart w.Uses := by
    rintro d e ⟨m, rfl⟩ ⟨n, rfl⟩ hname
    simp only [w] at hname ⊢
    by_cases hm : m = 0 <;> by_cases hn : n = 0 <;> simp only [hm, hn, if_true, if_false] at hname ⊢
    · exact absurd hname (by decide)
    · exact absurd hname (by decide)
  obtain ⟨hanswer, hcalls, hsize, hmisses⟩ := run_answers_afresh rfl apart acts
  have hlength : (w.callsSince [] acts).length = 4 := by decide +kernel
  have hkeys : (parsedKeys (w.callsSince [] acts)).toFinset.card = 2 := by decide +kernel
  have hfailures : failures (w.callsSince [] acts) = 1 := by decide +kernel
  rw [hkeys] at hsize
  rw [hsize, hfailures] at hmisses
  have hplace : SourceFile.place ((w.run acts).files 0).identifier
      (.ofText ((w.run acts).files 0).contents) 10 = .point none 2 1 := by decide +kernel
  have hdialect : ((w.run acts).files 1).dialect = .swift := by decide +kernel
  refine ⟨rfl, apart, ?_, ?_, hcalls.trans hlength, hsize, hmisses⟩
  · rw [hanswer, answerAfresh, hplace]
  · rw [hanswer, answerAfresh, hdialect]
    rfl

end Workspace

end StyleRules
