import StyleRules.Proofs.Discovery
import StyleRules.Proofs.Persistence

namespace StyleRules

section Sequences

variable {α σ : Type} {first : Except Fault (List α) × σ} {rest : σ → Except Fault (List α) × σ}

/-- One piece of work, and more work on what it leaves; what is found adds up, and nothing more is
done after a fault. -/
def inTurn (first : Except Fault (List α) × σ) (rest : σ → Except Fault (List α) × σ) :
    Except Fault (List α) × σ :=
  match first.1 with
  | .error f => (.error f, first.2)
  | .ok found => ((rest first.2).1.map (found ++ ·), (rest first.2).2)

/-- Work that ends with a fault does so at once, or later on. -/
theorem inTurn_eq_error {f : Fault} {t : σ} (h : inTurn first rest = (.error f, t)) :
    first = (.error f, t) ∨ ∃ found s, first = (.ok found, s) ∧ rest s = (.error f, t) := by
  rcases first with ⟨e | found, s⟩
  · exact .inl h
  · refine .inr ⟨found, s, rfl, ?_⟩
    unfold inTurn at h
    rcases hrest : rest s with ⟨e | more, u⟩
    · simp only [hrest] at h
      cases h
      rfl
    · simp only [hrest] at h
      cases h

/-- Work that succeeds does so in both parts. -/
theorem inTurn_eq_ok_iff {found : List α} {t : σ} :
    inTurn first rest = (.ok found, t) ↔
      ∃ early s late, first = (.ok early, s) ∧ rest s = (.ok late, t) ∧ found = early ++ late := by
  constructor
  · intro h
    rcases first with ⟨e | early, s⟩
    · cases h
    · unfold inTurn at h
      rcases hrest : rest s with ⟨e | late, u⟩
      · simp only [hrest] at h
        cases h
      · simp only [hrest] at h
        cases h
        exact ⟨early, s, late, rfl, hrest, rfl⟩
  · rintro ⟨early, s, late, rfl, hrest, rfl⟩
    simp only [inTurn, hrest]
    rfl

end Sequences

namespace Rule

/-- The rule corrects files as rules share it: nothing but its edits changes what is stored. -/
def SharesCorrection (r : Rule) : Prop := r.kind.corrector.bind (·.override) = none

variable {r : Rule} {desk : Desk} {path : Path}

variable [Parser]

theorem correct_of_sharesCorrection (h : r.SharesCorrection) :
    r.correct desk = r.makeEdits desk := by
  unfold correct
  rw [h]

/-- A correction of a stored file changes nothing but what this file holds, and nothing at all if
no edit is made. -/
theorem correct_rewritten (h : r.SharesCorrection) (hpath : desk.file.path = some path)
    (hfile : desk.store.isFile path) :
    (r.correct desk).2.file.path = some path ∧
      desk.store.Rewritten (· = path) (r.correct desk).2.store ∧
      ((r.correct desk).1 = .ok [] → (r.correct desk).2.store = desk.store) := by
  rw [correct_of_sharesCorrection h]
  obtain ⟨cache, ⟨f, hc⟩ | hc | ⟨contents, written, made, hw, hmade, hc⟩⟩ := r.makeEdits_cases desk
  · rw [hc]
    exact ⟨hpath, .refl _ _, fun _ => rfl⟩
  · rw [hc]
    exact ⟨hpath, .refl _ _, fun _ => rfl⟩
  · rw [hc]
    refine ⟨?_, ?_, fun hnone => absurd (Except.ok.inj hnone) hmade⟩
    · rw [Desk.replaceContents_file hw]
      exact hpath
    · rcases Desk.replaceContents_eq_ok hw with ⟨hnone, -⟩ | ⟨p, store, hp, hstore, rfl⟩
      · rw [hpath] at hnone
        cases hnone
      · cases hpath.symm.trans hp
        exact Store.rewritten_of_write hfile hstore

end Rule

/-- Work that starts from a store changes nothing but what the files at some places hold, and
nothing at all if nothing comes of it. -/
def ChangesOnly {α : Type} (places : Path → Prop) (store : Store)
    (worked : Except Fault (List α) × Store) : Prop :=
  store.Rewritten places worked.2 ∧ (worked.1 = .ok [] → worked.2 = store)

namespace ChangesOnly

variable {α : Type} {places more : Path → Prop} {store : Store}

theorem nothing (places : Path → Prop) (store : Store) (outcome : Except Fault (List α)) :
    ChangesOnly places store (outcome, store) :=
  ⟨.refl _ _, fun _ => rfl⟩

theorem weaken {worked : Except Fault (List α) × Store} (h : ChangesOnly places store worked)
    (among : ∀ q, store.isFile q → places q → more q) : ChangesOnly more store worked :=
  ⟨h.1.weaken among, h.2⟩

theorem append {found : List α} {s : Store} {later : Except Fault (List α) × Store}
    (h : ChangesOnly places store (.ok found, s)) (hlater : ChangesOnly places s later) :
    ChangesOnly places store (later.1.map (found ++ ·), later.2) := by
  refine ⟨h.1.trans hlater.1, fun hnone => ?_⟩
  rcases later with ⟨f | more, t⟩
  · cases hnone
  · obtain ⟨rfl, rfl⟩ := List.append_eq_nil_iff.mp (Except.ok.inj hnone)
    exact (hlater.2 rfl).trans (h.2 rfl)

theorem inTurn {first : Except Fault (List α) × Store}
    {rest : Store → Except Fault (List α) × Store} (h : ChangesOnly places store first)
    (hrest : ∀ t, store.Rewritten places t → ChangesOnly places t (rest t)) :
    ChangesOnly places store (StyleRules.inTurn first rest) := by
  rcases first with ⟨f | found, s⟩
  · exact h
  · exact h.append (hrest s h.1)

end ChangesOnly

namespace Configuration

variable {c : Configuration} {desk : Desk} {path : Path}

/-- No rule that runs overrides how rules correct files. -/
def SharesCorrection (c : Configuration) : Prop :=
  ∀ d rules, c.rulesFor d = .ok rules → ∀ r ∈ rules, r.SharesCorrection

variable [Parser]

theorem correctWith_cons (desk : Desk) (r : Rule) (rest : List Rule) :
    correctWith desk (r :: rest) = inTurn (r.correct desk) fun desk => correctWith desk rest := by
  rw [correctWith]
  rcases r.correct desk with ⟨f | made, corrected⟩
  · simp only [inTurn]
  · rcases hrest : correctWith corrected rest with ⟨f | more, final⟩ <;>
      simp only [inTurn, hrest, Except.map]

theorem correctWith_changesOnly {rules : List Rule} (h : ∀ r ∈ rules, r.SharesCorrection)
    (hpath : desk.file.path = some path) (hfile : desk.store.isFile path) :
    ChangesOnly (· = path) desk.store
      ((correctWith desk rules).1, (correctWith desk rules).2.store) := by
  induction rules generalizing desk with
  | nil => exact .nothing _ _ _
  | cons r rest ih =>
    obtain ⟨hr, hrest⟩ := List.forall_mem_cons.mp h
    obtain ⟨hpath', hfirst⟩ := Rule.correct_rewritten hr hpath hfile
    have hlater := ih hrest hpath' ((hfirst.1.isFile_iff path).mpr hfile)
    rw [correctWith_cons]
    rcases hcorrect : r.correct desk with ⟨f | made, corrected⟩
    · rw [hcorrect] at hfirst
      exact hfirst
    · rw [hcorrect] at hfirst hlater
      exact ChangesOnly.append hfirst hlater

theorem correct_changesOnly (h : c.SharesCorrection) (hpath : desk.file.path = some path)
    (hfile : desk.store.isFile path) :
    ChangesOnly (· = path) desk.store ((c.correct desk).1, (c.correct desk).2.store) := by
  unfold correct
  cases hrules : c.rulesFor desk.file.dialect with
  | error f => exact .nothing _ _ _
  | ok rules => exact correctWith_changesOnly (h _ _ hrules) hpath hfile

end Configuration

namespace Project

variable {store after : Store} {path : Path} {places paths : List Path} {f : Fault}

theorem load_eq_ok {file : SourceFile} (h : load store path = .ok file) :
    file.path = some path ∧ store.isFile path := by
  unfold load at h
  split at h
  next => cases h
  next d _ =>
    obtain ⟨hpath, -, hread⟩ := Desk.load_eq_ok h
    exact ⟨hpath, Store.isFile_iff.mpr ⟨_, Store.read_eq_ok_iff.mp hread⟩⟩

/-- A file of a known dialect fails to load only if its bytes are no text. -/
theorem load_eq_error (lintable : isLintable path) (hfile : store.isFile path)
    (h : load store path = .error f) :
    f = .undecodable ∧ ∃ bytes, store.read path = .ok bytes ∧ Text.decode? bytes = none := by
  obtain ⟨bytes, hread⟩ := Store.exists_read hfile
  unfold load at h
  split at h
  next hnone =>
    rw [isLintable, hnone] at lintable
    cases lintable
  next d _ =>
    rw [SourceFile.load, hread] at h
    dsimp only at h
    split at h
    next => cases h
    next hnone => exact ⟨(Except.error.inj h).symm, bytes, hread, hnone⟩

section Steps

variable {α : Type} {step : Desk → Except Fault (List α) × Desk}

/-- What a step makes of a stored file. -/
def workOn (step : Desk → Except Fault (List α) × Desk) (store : Store) (file : SourceFile) :
    Except Fault (List α) × Store :=
  ((step { file, store }).1, (step { file, store }).2.store)

theorem overFiles_cons (step : Desk → Except Fault (List α) × Desk) (path : Path)
    (rest : List Path) (store : Store) :
    overFiles step (path :: rest) store =
      if !store.isFile path then overFiles step rest store
      else
        match load store path with
        | .error f => (.error f, store)
        | .ok file => inTurn (workOn step store file) (overFiles step rest) := by
  rw [overFiles]
  split
  next => rfl
  next =>
    cases load store path with
    | error f => rfl
    | ok file =>
      rcases hstep : step { file, store } with ⟨f | found, desk⟩
      · simp only [inTurn, workOn, hstep]
      · rcases hrest : overFiles step rest desk.store with ⟨f | more, final⟩ <;>
          simp only [inTurn, workOn, hstep, hrest, Except.map]

theorem overPaths_cons (step : Desk → Except Fault (List α) × Desk) (path : Path)
    (rest : List Path) (store : Store) :
    overPaths step (path :: rest) store =
      match candidates store path with
      | .error f => (.error f, store)
      | .ok places => inTurn (overFiles step places store) (overPaths step rest) := by
  rw [overPaths]
  cases candidates store path with
  | error f => rfl
  | ok places =>
    rcases hfiles : overFiles step places store with ⟨f | found, between⟩
    · simp only [inTurn, hfiles]
    · rcases hrest : overPaths step rest between with ⟨f | more, final⟩ <;>
        simp only [inTurn, hfiles, hrest, Except.map]

/-- A step changes nothing but what the file it works on holds, and nothing at all if nothing comes
of it. -/
def Local (step : Desk → Except Fault (List α) × Desk) : Prop :=
  ∀ store path file, load store path = .ok file →
    ChangesOnly (· = path) store (workOn step store file)

theorem overFiles_changesOnly (h : Local step) (places : List Path) (store : Store) :
    ChangesOnly (· ∈ places) store (overFiles step places store) := by
  induction places generalizing store with
  | nil => exact .nothing _ _ _
  | cons path rest ih =>
    have hrest (t : Store) : ChangesOnly (· ∈ path :: rest) t (overFiles step rest t) :=
      (ih t).weaken fun q _ hq => List.mem_cons_of_mem path hq
    rw [overFiles_cons]
    split
    next => exact hrest store
    next =>
      cases hload : load store path with
      | error f => exact .nothing _ _ _
      | ok file =>
        have hfirst : ChangesOnly (· ∈ path :: rest) store (workOn step store file) :=
          (h store path file hload).weaken fun q _ hq => hq ▸ List.mem_cons_self
        exact hfirst.inTurn fun t _ => hrest t

/-- Work on the files that paths lead to changes no other path. -/
theorem overPaths_changesOnly (h : Local step) (paths : List Path) (store : Store) :
    ChangesOnly (fun q => ∃ p ∈ paths, LeadsTo store p q) store (overPaths step paths store) := by
  induction paths generalizing store with
  | nil => exact .nothing _ _ _
  | cons path rest ih =>
    rw [overPaths_cons]
    cases hplaces : candidates store path with
    | error f => exact .nothing _ _ _
    | ok places =>
      have hfirst : ChangesOnly (fun q => ∃ p ∈ path :: rest, LeadsTo store p q) store
          (overFiles step places store) :=
        (overFiles_changesOnly h places store).weaken fun q _ hq =>
          ⟨path, List.mem_cons_self, (mem_candidates hplaces).mp hq⟩
      -- The later paths are looked up in a rewritten store, in which they lead to the same places.
      refine hfirst.inTurn fun t ht => (ih t).weaken fun q _ hq => ?_
      obtain ⟨p, hp, hleads⟩ := hq
      exact ⟨p, List.mem_cons_of_mem path hp, (leadsTo_of_rewritten ht).mp hleads⟩

/-- Where work on the files that paths lead to comes to its end, there was something at every path
from the start. -/
theorem exists_discover_of_overPaths (h : Local step) {found : List α}
    (hok : overPaths step paths store = (.ok found, after)) :
    ∃ files, discover store paths = .ok files := by
  apply exists_discover
  induction paths generalizing store found after with
  | nil => simp
  | cons path rest ih =>
    rw [overPaths_cons] at hok
    cases hplaces : candidates store path with
    | error f => rw [hplaces] at hok; cases hok
    | ok places =>
      rw [hplaces] at hok
      have hchanges := overFiles_changesOnly h places store
      rcases hfiles : overFiles step places store with ⟨f | more, between⟩
      · simp only [inTurn, hfiles] at hok
        cases hok
      · rcases hrest : overPaths step rest between with ⟨f | last, final⟩
        · simp only [inTurn, hfiles, hrest] at hok
          cases hok
        · rw [hfiles] at hchanges
          refine List.forall_mem_cons.mpr ⟨exists_candidates_iff.mp ⟨places, hplaces⟩, ?_⟩
          intro p hp
          exact (hchanges.1.isSome_entryAt?_iff _).mp (ih hrest p hp)

/-- Work on files that ends with a fault is through with those before one of them, which cannot be
loaded or worked on. -/
theorem overFiles_eq_error (h : overFiles step places store = (.error f, after)) :
    ∃ first place rest found reached, places = first ++ place :: rest ∧
      overFiles step first store = (.ok found, reached) ∧ reached.isFile place ∧
      (load reached place = .error f ∧ after = reached ∨
        ∃ file, load reached place = .ok file ∧
          workOn step reached file = (.error f, after)) := by
  induction places generalizing store with
  | nil => cases h
  | cons path rest ih =>
    rw [overFiles_cons] at h
    by_cases hfile : store.isFile path
    · rw [if_neg (by simp [hfile])] at h
      cases hload : load store path with
      | error e =>
        rw [hload] at h
        cases h
        exact ⟨[], path, rest, [], _, rfl, rfl, hfile, .inl ⟨hload, rfl⟩⟩
      | ok file =>
        rw [hload] at h
        rcases inTurn_eq_error h with hwork | ⟨found, between, hwork, hrest⟩
        · exact ⟨[], path, rest, [], store, rfl, rfl, hfile, .inr ⟨file, hload, hwork⟩⟩
        · obtain ⟨first, place, later, more, reached, rfl, hfirst, hend⟩ := ih hrest
          refine ⟨path :: first, place, later, found ++ more, reached, rfl, ?_, hend⟩
          rw [overFiles_cons, if_neg (by simp [hfile]), hload]
          simp only [inTurn, hwork, hfirst, Except.map]
    -- A place at which no file stands is passed over: it is one of those the run is through with.
    · have hskip : (!store.isFile path) = true := by simp [hfile]
      rw [if_pos hskip] at h
      obtain ⟨first, place, later, found, reached, rfl, hfirst, hend⟩ := ih h
      refine ⟨path :: first, place, later, found, reached, rfl, ?_, hend⟩
      rw [overFiles_cons, if_pos hskip]
      exact hfirst

/-- Work on paths that ends with a fault is through with those before one of them, which leads
nowhere or to files on which the work ends with the fault. -/
theorem overPaths_eq_error (h : overPaths step paths store = (.error f, after)) :
    ∃ before path later found between, paths = before ++ path :: later ∧
      overPaths step before store = (.ok found, between) ∧
      (candidates between path = .error f ∧ after = between ∨
        ∃ places, candidates between path = .ok places ∧
          overFiles step places between = (.error f, after)) := by
  induction paths generalizing store with
  | nil => cases h
  | cons path rest ih =>
    rw [overPaths_cons] at h
    cases hplaces : candidates store path with
    | error e =>
      rw [hplaces] at h
      cases h
      exact ⟨[], path, rest, [], _, rfl, rfl, .inl ⟨hplaces, rfl⟩⟩
    | ok places =>
      rw [hplaces] at h
      rcases inTurn_eq_error h with hfiles | ⟨found, between, hfiles, hrest⟩
      · exact ⟨[], path, rest, [], store, rfl, rfl, .inr ⟨places, hplaces, hfiles⟩⟩
      · obtain ⟨before, path', later, more, reached, rfl, hbefore, hend⟩ := ih hrest
        refine ⟨path :: before, path', later, found ++ more, reached, rfl, ?_, hend⟩
        rw [overPaths_cons, hplaces]
        simp only [inTurn, hfiles, hbefore, Except.map]

end Steps

end Project

end StyleRules
