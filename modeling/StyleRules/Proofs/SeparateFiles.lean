import StyleRules.Proofs.ProjectRuns
import Mathlib.Data.List.Count

namespace StyleRules

namespace Store

variable {s t u : Store} {p q : Path} {bytes : Bytes}

def Distinct (s : Store) : Prop := (s.entries.map (·.1)).Nodup

instance (s : Store) : Decidable s.Distinct :=
  inferInstanceAs (Decidable (s.entries.map (·.1)).Nodup)

theorem Distinct.write (h : s.Distinct) (hw : s.write p bytes = .ok t) : t.Distinct := by
  obtain ⟨-, -, rfl⟩ := write_eq_ok_iff.mp hw
  unfold Distinct put
  rw [List.map_append, List.map_singleton]
  apply List.nodup_append.mpr
  refine ⟨?_, List.nodup_singleton p, ?_⟩
  · exact h.sublist (List.filter_sublist.map _)
  · intro a ha b hb
    obtain ⟨e, he, rfl⟩ := List.mem_map.mp ha
    rw [List.mem_singleton.mp hb]
    simpa using (List.mem_filter.mp he).2

theorem Distinct.below (h : s.Distinct) (directory : Path) : (s.below directory).Nodup := by
  have hperm : (s.below directory).Perm ((s.entries.map (·.1)).filter (·.isBelow directory)) :=
    sortBy_perm _
  exact hperm.nodup_iff.mpr (h.filter _)

/-- Two stores have the same at a path and the same directories. -/
structure AgreeAt (q : Path) (s t : Store) : Prop where
  entry : t.entryAt? q = s.entryAt? q
  directories : ∀ p, t.isDirectory p = s.isDirectory p

namespace AgreeAt

theorem refl (q : Path) (s : Store) : s.AgreeAt q s := ⟨rfl, fun _ => rfl⟩

theorem symm (h : s.AgreeAt q t) : t.AgreeAt q s := ⟨h.entry.symm, fun p => (h.directories p).symm⟩

theorem trans (h : s.AgreeAt q t) (h' : t.AgreeAt q u) : s.AgreeAt q u :=
  ⟨h'.entry.trans h.entry, fun p => (h'.directories p).trans (h.directories p)⟩

theorem of_rewritten {places : Path → Prop} (h : s.Rewritten places t) (hq : ¬places q) :
    s.AgreeAt q t where
  entry := (h.kept q).resolve_right fun hplace => hq hplace.1
  directories p := Bool.eq_iff_iff.mpr (h.isDirectory_iff p)

theorem isFile (h : s.AgreeAt q t) : t.isFile q = s.isFile q := by
  unfold Store.isFile
  rw [h.entry]

/-- Bytes that can be written in one of the stores can be written in the other. -/
theorem write (h : s.AgreeAt p t) (hw : s.write p bytes = .ok u) :
    ∃ u', t.write p bytes = .ok u' ∧ u.AgreeAt p u' := by
  have hroot := ne_root_of_write hw
  obtain ⟨hp, hparent, rfl⟩ := write_eq_ok_iff.mp hw
  refine ⟨t.put p (.file bytes), write_eq_ok_iff.mpr ⟨?_, ?_, rfl⟩, ?_, ?_⟩
  · rw [h.directories, hp]
  · rw [h.directories, hparent]
  · rw [entryAt?_put_self _ hroot, entryAt?_put_self _ hroot]
  · intro r
    by_cases hr : r = p
    · rw [hr, isDirectory, isDirectory, entryAt?_put_self _ hroot, entryAt?_put_self _ hroot]
    · have hsame := h.directories r
      unfold isDirectory at hsame ⊢
      rw [entryAt?_put_of_ne _ hr, entryAt?_put_of_ne _ hr, hsame]

end AgreeAt

end Store

namespace Project

variable {α : Type} {location : α → Location} {step : Desk → Except Fault (List α) × Desk}
  {s t after : Store} {path q : Path} {places : List Path} {found : List α}

/-- What is found lies in a file. -/
def liesIn (location : α → Location) (q : Path) (x : α) : Bool :=
  (location x).file = some q.toText

/-- A step that keeps to the file it works on. -/
structure Confined (step : Desk → Except Fault (List α) × Desk) : Prop where
  changes : Local step
  /-- What comes of a file does not depend on what other files hold. -/
  alike : ∀ {s t path file found s'}, s.AgreeAt path t → load s path = .ok file →
    workOn step s file = (.ok found, s') →
      ∃ t', workOn step t file = (.ok found, t') ∧ s'.AgreeAt path t'
  distinct : ∀ {s path file found s'}, load s path = .ok file →
    workOn step s file = (.ok found, s') → s.Distinct → s'.Distinct

/-- A step that also finds things only in the file it works on. -/
structure Separate (location : α → Location) (step : Desk → Except Fault (List α) × Desk) : Prop
    extends Confined step where
  within : ∀ {s path file found s'}, load s path = .ok file →
    workOn step s file = (.ok found, s') → ∀ x ∈ found, liesIn location path x

theorem load_congr (h : s.AgreeAt path t) (hfile : s.isFile path) :
    load t path = load s path := by
  obtain ⟨bytes, hentry⟩ := Store.isFile_iff.mp hfile
  have hread : s.read path = .ok bytes := Store.read_eq_ok_iff.mpr hentry
  have hread' : t.read path = .ok bytes := Store.read_eq_ok_iff.mpr (h.entry.trans hentry)
  unfold load SourceFile.load
  rw [hread, hread']

/-- What a run does with the first place that it comes to. -/
def visit (step : Desk → Except Fault (List α) × Desk) (store : Store) (path : Path) :
    Except Fault (List α) × Store :=
  if !store.isFile path then (.ok [], store)
  else
    match load store path with
    | .error f => (.error f, store)
    | .ok file => workOn step store file

theorem overFiles_eq_inTurn (step : Desk → Except Fault (List α) × Desk) (path : Path)
    (rest : List Path) (store : Store) :
    overFiles step (path :: rest) store =
      inTurn (visit step store path) (overFiles step rest) := by
  rw [overFiles_cons, visit]
  split
  next =>
    rcases hrest : overFiles step rest store with ⟨f | more, final⟩ <;>
      simp only [inTurn, hrest, Except.map, List.nil_append]
  next =>
    cases load store path with
    | error f => rfl
    | ok file => rfl

theorem overFiles_append (step : Desk → Except Fault (List α) × Desk) (early late : List Path)
    (store : Store) :
    overFiles step (early ++ late) store =
      inTurn (overFiles step early store) (overFiles step late) := by
  induction early generalizing store with
  | nil =>
    rcases hlate : overFiles step late store with ⟨f | more, final⟩ <;>
      simp only [List.nil_append, overFiles, inTurn, hlate, Except.map]
  | cons path early ih =>
    rw [List.cons_append, overFiles_eq_inTurn, overFiles_eq_inTurn]
    rcases hvisit : visit step store path with ⟨f | first, between⟩
    · simp only [inTurn]
    · have hrest := ih between
      rcases hearly : overFiles step early between with ⟨f | more, reached⟩
      · simp only [inTurn, hearly] at hrest ⊢
        rw [hrest]
        rfl
      · rcases hlate : overFiles step late reached with ⟨f | last, final⟩ <;>
          simp only [inTurn, hearly, hlate, Except.map] at hrest ⊢ <;>
          simp only [hrest, List.append_assoc]

/-- What is found at a location is found in its file. -/
theorem filter_location_eq {l : Location} (hfile : l.file = some q.toText) (items : List α) :
    items.filter (location · = l) =
      (items.filter (liesIn location q)).filter (location · = l) := by
  rw [List.filter_filter]
  congr 1
  funext x
  by_cases hx : location x = l
  · simp [hx, liesIn, hfile]
  · simp [hx]

/-- Nothing is found at a location in none of the files in which everything is found. -/
theorem filter_location_eq_nil {l : Location} (hl : ¬∃ p ∈ places, l.file = some p.toText)
    (hfound : ∀ x ∈ found, ∃ p ∈ places, liesIn location p x) :
    found.filter (location · = l) = [] := by
  apply List.filter_eq_nil_iff.mpr
  intro x hx hloc
  obtain ⟨p, hp, hlies⟩ := hfound x hx
  have hloc : location x = l := by simpa using hloc
  exact hl ⟨p, hp, by simpa [liesIn, hloc] using hlies⟩

namespace Confined

variable (h : Confined step)
include h

theorem visit_changes (s : Store) (path : Path) :
    ChangesOnly (· = path) s (visit step s path) := by
  unfold visit
  split
  next => exact .nothing _ _ _
  next =>
    split
    next => exact .nothing _ _ _
    next file hload => exact h.changes s path file hload

theorem visit_alike {s' : Store} (agree : s.AgreeAt path t)
    (hvisit : visit step s path = (.ok found, s')) :
    ∃ t', visit step t path = (.ok found, t') ∧ s'.AgreeAt path t' := by
  unfold visit at hvisit ⊢
  rw [agree.isFile]
  split at hvisit
  next hskip =>
    cases hvisit
    exact ⟨t, by rw [if_pos hskip], agree⟩
  next hfile =>
    rw [if_neg hfile, load_congr agree (by simpa using hfile)]
    cases hload : load s path with
    | error f => rw [hload] at hvisit; cases hvisit
    | ok file =>
      rw [hload] at hvisit
      exact h.alike agree hload hvisit

theorem visit_distinct {s' : Store} (hvisit : visit step s path = (.ok found, s'))
    (hs : s.Distinct) : s'.Distinct := by
  unfold visit at hvisit
  split at hvisit
  next => cases hvisit; exact hs
  next =>
    split at hvisit
    next => cases hvisit
    next file hload => exact h.distinct hload hvisit hs

/-- Work on a file leaves every other one alone. -/
theorem visit_agreeAt {s' : Store} (hvisit : visit step s path = (.ok found, s')) (hq : q ≠ path) :
    s.AgreeAt q s' := by
  have hchanges := h.visit_changes s path
  rw [hvisit] at hchanges
  exact .of_rewritten hchanges.1 hq

theorem overFiles_distinct (run : overFiles step places s = (.ok found, after))
    (hs : s.Distinct) : after.Distinct := by
  induction places generalizing s found with
  | nil => cases run; exact hs
  | cons path rest ih =>
    rw [overFiles_eq_inTurn] at run
    obtain ⟨first, between, more, hvisit, hrest, -⟩ := inTurn_eq_ok_iff.mp run
    exact ih hrest (h.visit_distinct hvisit hs)

/-- A run over files leaves every other one alone. -/
theorem overFiles_agreeAt (run : overFiles step places s = (.ok found, after)) (hq : q ∉ places) :
    s.AgreeAt q after := by
  have hchanges := overFiles_changesOnly h.changes places s
  rw [run] at hchanges
  exact .of_rewritten hchanges.1 hq

/-- A run passes over the places where no file stands when it starts. -/
theorem overFiles_filter_isFile (places : List Path) (s : Store) :
    overFiles step (places.filter s.isFile) s = overFiles step places s := by
  induction places generalizing s with
  | nil => rfl
  | cons path rest ih =>
    by_cases hfile : s.isFile path
    · have hchanges := h.visit_changes s path
      rw [List.filter_cons_of_pos hfile, overFiles_eq_inTurn, overFiles_eq_inTurn]
      rcases hvisit : visit step s path with ⟨f | first, between⟩
      · rfl
      · rw [hvisit] at hchanges
        have hsame : between.isFile = s.isFile :=
          funext fun q => Bool.eq_iff_iff.mpr (hchanges.1.isFile_iff q)
        have hrest := ih between
        rw [hsame] at hrest
        simp only [inTurn, hrest]
    · rw [List.filter_cons_of_neg hfile, overFiles_cons, if_pos (by simpa using hfile), ih]

end Confined

namespace Separate

variable (h : Separate location step)
include h

theorem visit_within {s' : Store} (hvisit : visit step s path = (.ok found, s')) :
    ∀ x ∈ found, liesIn location path x := by
  unfold visit at hvisit
  split at hvisit
  next =>
    cases hvisit
    exact List.forall_mem_nil _
  next =>
    split at hvisit
    next => cases hvisit
    next file hload => exact h.within hload hvisit

/-- A run over files treats one of them as a run over this one alone does, also in another store
that agrees on it. -/
theorem alone (agree : s.AgreeAt q t)
    (named : ∀ p ∈ places, p.toText = q.toText → p = q)
    (run : overFiles step places s = (.ok found, after)) :
    ∃ reached, overFiles step (places.filter (· = q)) t =
        (.ok (found.filter (liesIn location q)), reached) ∧ after.AgreeAt q reached := by
  induction places generalizing s t found with
  | nil =>
    cases run
    exact ⟨t, rfl, agree⟩
  | cons p rest ih =>
    rw [overFiles_eq_inTurn] at run
    obtain ⟨first, between, more, hvisit, hrest, rfl⟩ := inTurn_eq_ok_iff.mp run
    have hwithin := h.visit_within hvisit
    have hnamed : ∀ p ∈ rest, p.toText = q.toText → p = q :=
      fun r hr => named r (List.mem_cons_of_mem p hr)
    rw [List.filter_append]
    by_cases hp : p = q
    · subst hp
      obtain ⟨between', hvisit', hagree⟩ := h.visit_alike agree hvisit
      obtain ⟨reached, hreached, hafter⟩ := ih hagree hnamed hrest
      refine ⟨reached, ?_, hafter⟩
      rw [List.filter_cons_of_pos (by simp), overFiles_eq_inTurn, List.filter_eq_self.mpr hwithin]
      exact inTurn_eq_ok_iff.mpr ⟨first, between', _, hvisit', hreached, rfl⟩
    -- Work on another file neither changes this one nor finds anything in it.
    · have hkept := h.visit_agreeAt hvisit (Ne.symm hp)
      obtain ⟨reached, hreached, hafter⟩ := ih (hkept.symm.trans agree) hnamed hrest
      have hnone : first.filter (liesIn location q) = [] := by
        apply List.filter_eq_nil_iff.mpr
        intro x hx hlies
        have hfile : (location x).file = some p.toText := by simpa [liesIn] using hwithin x hx
        rw [liesIn, hfile] at hlies
        exact hp (named p List.mem_cons_self (by simpa using hlies))
      refine ⟨reached, ?_, hafter⟩
      rw [List.filter_cons_of_neg (by simpa using hp), hnone]
      exact hreached

/-- A run over files succeeds if the run over each of them alone does. -/
theorem exists_of_alone
    (alone : ∀ q ∈ places, ∃ own reached,
      overFiles step (places.filter (· = q)) s = (.ok own, reached)) :
    ∃ found after, overFiles step places s = (.ok found, after) := by
  induction places generalizing s with
  | nil => exact ⟨[], s, rfl⟩
  | cons p rest ih =>
    obtain ⟨own, reached, hown⟩ := alone p List.mem_cons_self
    rw [List.filter_cons_of_pos (by simp), overFiles_eq_inTurn] at hown
    obtain ⟨first, between, more, hvisit, hmore, -⟩ := inTurn_eq_ok_iff.mp hown
    obtain ⟨found, after, hrest⟩ : ∃ found after, overFiles step rest between = (.ok found, after) := by
      apply ih
      intro q hq
      by_cases hp : p = q
      · subst hp
        exact ⟨more, reached, hmore⟩
      · obtain ⟨own, reached, hown⟩ := alone q (List.mem_cons_of_mem p hq)
        rw [List.filter_cons_of_neg (by simpa using hp)] at hown
        have hkept := h.visit_agreeAt hvisit (Ne.symm hp)
        have hnamed : ∀ r ∈ rest.filter (· = q), r.toText = q.toText → r = q :=
          fun r hr _ => by simpa using (List.mem_filter.mp hr).2
        obtain ⟨reached', hreached, -⟩ := h.alone hkept hnamed hown
        simp only [List.filter_filter, Bool.and_self] at hreached
        exact ⟨_, reached', hreached⟩
    refine ⟨first ++ found, after, ?_⟩
    rw [overFiles_eq_inTurn]
    exact inTurn_eq_ok_iff.mpr ⟨first, between, found, hvisit, hrest, rfl⟩

theorem overFiles_within (run : overFiles step places s = (.ok found, after)) :
    ∀ x ∈ found, ∃ p ∈ places, liesIn location p x := by
  induction places generalizing s found with
  | nil =>
    cases run
    exact List.forall_mem_nil _
  | cons p rest ih =>
    rw [overFiles_eq_inTurn] at run
    obtain ⟨first, between, more, hvisit, hrest, rfl⟩ := inTurn_eq_ok_iff.mp run
    intro x hx
    rcases List.mem_append.mp hx with hx | hx
    · exact ⟨p, List.mem_cons_self, h.visit_within hvisit x hx⟩
    · obtain ⟨r, hr, hlies⟩ := ih hrest x hx
      exact ⟨r, List.mem_cons_of_mem p hr, hlies⟩

/-- In whatever order files are worked on, the same is left of each and the same is found at each
place, in the same order. -/
theorem overFiles_perm {places' : List Path} (same : places'.Perm places)
    (named : ∀ p ∈ places, ∀ q ∈ places, p.toText = q.toText → p = q)
    (run : overFiles step places s = (.ok found, after)) :
    ∃ found' after', overFiles step places' s = (.ok found', after') ∧
      (∀ q, after'.entryAt? q = after.entryAt? q) ∧
      ∀ l, found'.filter (location · = l) = found.filter (location · = l) := by
  have hfilter (q : Path) : places'.filter (· = q) = places.filter (· = q) := by
    rw [List.filter_eq, List.filter_eq, same.count_eq]
  have halone (q : Path) (hq : q ∈ places) := h.alone (.refl q s) (fun p hp => named p hp q hq) run
  obtain ⟨found', after', run'⟩ : ∃ found' after', overFiles step places' s = (.ok found', after') := by
    apply h.exists_of_alone
    intro q hq
    obtain ⟨reached, hreached, -⟩ := halone q (same.mem_iff.mp hq)
    rw [hfilter q]
    exact ⟨_, reached, hreached⟩
  have halone' (q : Path) (hq : q ∈ places) := h.alone (.refl q s)
    (fun p hp => named p (same.mem_iff.mp hp) q hq) run'
  refine ⟨found', after', run', ?_, ?_⟩
  · intro q
    by_cases hq : q ∈ places
    · obtain ⟨reached, hreached, hagree⟩ := halone q hq
      obtain ⟨reached', hreached', hagree'⟩ := halone' q hq
      rw [hfilter q, hreached] at hreached'
      have hsame : reached = reached' := congrArg Prod.snd hreached'
      rw [← hagree'.entry, ← hsame, hagree.entry]
    · have hkept := h.toConfined.overFiles_agreeAt run hq
      have hkept' := h.toConfined.overFiles_agreeAt run' fun hq' => hq (same.mem_iff.mp hq')
      exact hkept'.entry.trans hkept.entry.symm
  -- A location lies in one of the files, and what is found there is found in its own run; or in
  -- none of them, and neither run finds anything there.
  · intro l
    by_cases hl : ∃ q ∈ places, l.file = some q.toText
    · obtain ⟨q, hq, hfile⟩ := hl
      obtain ⟨reached, hreached, -⟩ := halone q hq
      obtain ⟨reached', hreached', -⟩ := halone' q hq
      rw [hfilter q, hreached] at hreached'
      have hown : found.filter (liesIn location q) = found'.filter (liesIn location q) :=
        Except.ok.inj (congrArg Prod.fst hreached')
      rw [filter_location_eq hfile found', filter_location_eq hfile found, hown]
    · have hwithin' : ∀ x ∈ found', ∃ p ∈ places, liesIn location p x := by
        intro x hx
        obtain ⟨p, hp, hlies⟩ := h.overFiles_within run' x hx
        exact ⟨p, same.mem_iff.mp hp, hlies⟩
      rw [filter_location_eq_nil hl hwithin', filter_location_eq_nil hl (h.overFiles_within run)]

end Separate

end Project

end StyleRules
