import StyleRules.Proofs.ForeignRules
import StyleRules.Proofs.LocationOrder
import StyleRules.Proofs.ProjectRuns
import StyleRules.SyntaxTree.Comparison

namespace StyleRules

namespace Configuration

theorem mem_mapM {α β : Type} {f : α → Except Fault β} {items : List α} {results : List β}
    (h : items.mapM f = .ok results) {b : β} (hb : b ∈ results) : ∃ a ∈ items, f a = .ok b := by
  induction items generalizing results with
  | nil =>
    cases Except.ok.inj h
    cases hb
  | cons a rest ih =>
    rw [List.mapM_cons] at h
    cases ha : f a with
    | error e => rw [ha] at h; cases h
    | ok first =>
      cases hrest : rest.mapM f with
      | error e => rw [ha, hrest] at h; cases h
      | ok more =>
        rw [ha, hrest] at h
        cases Except.ok.inj h
        rcases List.mem_cons.mp hb with rfl | hmore
        · exact ⟨a, List.mem_cons_self, ha⟩
        · obtain ⟨a', ha', hb'⟩ := ih hrest hmore
          exact ⟨a', List.mem_cons_of_mem a ha', hb'⟩

/-- A rule that runs was configured, or its kind is registered. -/
theorem mem_rulesFor {c : Configuration} {d : Dialect} {rules : List Rule} {r : Rule}
    (h : c.rulesFor d = .ok rules) (hr : r ∈ rules) :
    r ∈ c.configured ∨ r.kind ∈ c.registry.kinds := by
  unfold rulesFor Configuration.rules at h
  cases hall : (c.registry.sorted.filter fun k => c.isEnabled k.identifier).mapM c.ruleOf with
  | error f => rw [hall] at h; cases h
  | ok all =>
    rw [hall] at h
    cases Except.ok.inj h
    obtain ⟨k, hk, hrule⟩ := mem_mapM hall (List.mem_filter.mp hr).1
    rcases ruleOf_eq_ok hrule with ⟨hmem, -⟩ | hkind
    · exact .inl hmem
    · rw [hkind]
      exact .inr (Registry.mem_sorted.mp (List.mem_filter.mp hk).1)

/-- Rules that come with the tool change what is stored by their edits only. -/
theorem sharesCorrection_of_standard {c : Configuration} (registry : c.registry = .standard)
    (configured : ∀ r ∈ c.configured, r.kind ∈ Registry.standard.kinds) : c.SharesCorrection := by
  have hkinds : ∀ k ∈ Registry.standard.kinds, k.corrector.bind (·.override) = none := by
    simp only [Registry.standard, List.forall_mem_cons]
    exact ⟨rfl, rfl, by simp⟩
  intro d rules hrules r hr
  rcases mem_rulesFor hrules hr with h | h
  · exact hkinds _ (configured r h)
  · exact hkinds _ (registry ▸ h)

end Configuration

namespace Project

variable {c : Configuration} {store reached : Store} {paths before first : List Path}
  {path place : Path} {made : List Correction}

section Reaching

variable [Parser]

/-- The run that corrects paths is through with those before one of them. -/
def ReachesPath (c : Configuration) (store : Store) (paths before : List Path) (path : Path)
    (made : List Correction) (reached : Store) : Prop :=
  (∃ later, paths = before ++ path :: later) ∧ correct c store before = (.ok made, reached)

/-- The run that corrects paths is through with those before one of them, and with the first of
the places that this one leads to. -/
def ReachesFile (c : Configuration) (store : Store) (paths before : List Path) (path : Path)
    (first : List Path) (place : Path) (made : List Correction) (reached : Store) : Prop :=
  ∃ early between late rest, ReachesPath c store paths before path early between ∧
    candidates between path = .ok (first ++ place :: rest) ∧
    overFiles c.correct first between = (.ok late, reached) ∧ reached.isFile place ∧
    made = early ++ late

theorem local_correct (h : c.SharesCorrection) : Local c.correct := by
  intro store path file hload
  obtain ⟨hpath, hfile⟩ := load_eq_ok hload
  exact @Configuration.correct_changesOnly c { file, store } path _ h hpath hfile

theorem correct_eq_ok_iff :
    correct c store paths = (.ok made, reached) ↔
      ∃ found, overPaths c.correct paths store = (.ok found, reached) ∧
        made = Location.sortOn (·.location) found := by
  unfold correct
  rcases overPaths c.correct paths store with ⟨f | found, after⟩
  · simp [Except.map]
  · simp [Except.map, eq_comm, and_comm]

theorem correct_eq_error_iff {f : Fault} :
    correct c store paths = (.error f, reached) ↔
      overPaths c.correct paths store = (.error f, reached) := by
  unfold correct
  rcases overPaths c.correct paths store with ⟨f | found, after⟩ <;> simp [Except.map]

/-- By then the files that the paths before lead to are the only ones that have changed, and none
has if there was nothing to correct. -/
theorem ReachesPath.changes (h : ReachesPath c store paths before path made reached)
    (shares : c.SharesCorrection) :
    (made = [] → reached = store) ∧
      ∃ earlier, discover store before = .ok earlier ∧
        store.Rewritten (· ∈ earlier) reached := by
  obtain ⟨found, hrun, rfl⟩ := correct_eq_ok_iff.mp h.2
  have hlocal := local_correct shares
  have hchanges := overPaths_changesOnly hlocal before store
  rw [hrun] at hchanges
  obtain ⟨earlier, hearlier⟩ := exists_discover_of_overPaths hlocal hrun
  refine ⟨fun hnone => ?_, earlier, hearlier, hchanges.1.weaken fun q hfile hq => ?_⟩
  · have hperm := @Location.sortOn_perm Correction (·.location) found
    rw [hnone] at hperm
    exact hchanges.2 (by rw [List.nil_perm.mp hperm])
  · exact (mem_discover hearlier).mpr ⟨hfile, hq⟩

/-- The same with the files found before in one of the paths. -/
theorem ReachesFile.changes (h : ReachesFile c store paths before path first place made reached)
    (shares : c.SharesCorrection) :
    (made = [] → reached = store) ∧
      ∃ earlier found, discover store before = .ok earlier ∧ discover store [path] = .ok found ∧
        place ∈ found ∧
        store.Rewritten (fun q => q ∈ earlier ∨ q ∈ found ∧ q.atMost place) reached := by
  obtain ⟨early, between, late, rest, hpath, hplaces, hrun, hfile, rfl⟩ := h
  obtain ⟨hnone, earlier, hearlier, hbefore⟩ := hpath.changes shares
  have hchanges := overFiles_changesOnly (local_correct shares) first between
  rw [hrun] at hchanges
  have hthere := (hbefore.isSome_entryAt?_iff path.resolve).mp
    (exists_candidates_iff.mp ⟨_, hplaces⟩)
  obtain ⟨found, hfound⟩ := exists_discover (s := store) (List.forall_mem_singleton.mpr hthere)
  have mem_found {q : Path} (hq : q ∈ first ++ place :: rest) (hqfile : store.isFile q) :
      q ∈ found :=
    (mem_discover hfound).mpr ⟨hqfile, path, List.mem_singleton_self path,
      (leadsTo_of_rewritten hbefore).mp ((mem_candidates hplaces).mp hq)⟩
  refine ⟨fun hmade => ?_, earlier, found, hearlier, hfound, ?_, ?_⟩
  · obtain ⟨hearly, hlate⟩ := List.append_eq_nil_iff.mp hmade
    exact (hchanges.2 (by rw [hlate])).trans (hnone hearly)
  · have hplace := (hbefore.isFile_iff place).mp ((hchanges.1.isFile_iff place).mp hfile)
    exact mem_found (by simp) hplace
  · refine (hbefore.weaken fun q _ hq => .inl hq).trans (hchanges.1.weaken fun q hq hfirst => ?_)
    have hqfile := (hbefore.isFile_iff q).mp hq
    -- The places that a path leads to come in ascending order, so those before are at most this one.
    have hascending := List.pairwise_append.mp (candidates_ascending hplaces)
    exact .inr ⟨mem_found (List.mem_append_left _ hfirst) hqfile,
      hascending.2.2 q hfirst place List.mem_cons_self⟩

/-- A run that ends with a fault has corrected what it came to before the path or file that ended
it, and no other file has changed. -/
theorem correct_stops {f : Fault} {after : Store}
    (h : correct c store paths = (.error f, after)) :
    (∃ before path made, ReachesPath c store paths before path made after ∧
        f = .noSuchPath path ∧ after.entryAt? path.resolve = none ∧
        (c.SharesCorrection →
          (made = [] → after = store) ∧ store.entryAt? path.resolve = none ∧
            ∃ earlier, discover store before = .ok earlier ∧
              store.Rewritten (· ∈ earlier) after)) ∨
      (∃ before path first place made bytes,
        ReachesFile c store paths before path first place made after ∧
        f = .undecodable ∧ after.read place = .ok bytes ∧ Text.decode? bytes = none ∧
        (c.SharesCorrection →
          (made = [] → after = store) ∧ after.entryAt? place = store.entryAt? place ∧
            ∃ earlier found, discover store before = .ok earlier ∧
              discover store [path] = .ok found ∧ place ∈ found ∧
              store.Rewritten (fun q => q ∈ earlier ∨ q ∈ found ∧ q.atMost place) after)) ∨
      ∃ before path first place made reached file,
        ReachesFile c store paths before path first place made reached ∧
        load reached place = .ok file ∧ workOn c.correct reached file = (.error f, after) := by
  obtain ⟨before, path, later, found, between, hpaths, hbefore, hend⟩ :=
    overPaths_eq_error (correct_eq_error_iff.mp h)
  have hreaches : ReachesPath c store paths before path _ between :=
    ⟨⟨later, hpaths⟩, correct_eq_ok_iff.mpr ⟨found, hbefore, rfl⟩⟩
  rcases hend with ⟨hnowhere, rfl⟩ | ⟨places, hplaces, hfiles⟩
  · obtain ⟨hentry, hf⟩ := candidates_eq_error_iff.mp hnowhere
    refine .inl ⟨before, path, _, hreaches, hf, hentry, fun shares => ?_⟩
    obtain ⟨hnone, earlier, hearlier, hchanges⟩ := hreaches.changes shares
    refine ⟨hnone, ?_, earlier, hearlier, hchanges⟩
    have hsome := hchanges.isSome_entryAt?_iff path.resolve
    simpa [hentry] using hsome
  · obtain ⟨first, place, rest, more, reached, rfl, hfirst, hfile, hcause⟩ :=
      overFiles_eq_error hfiles
    have hreachesFile : ReachesFile c store paths before path first place _ reached :=
      ⟨_, between, more, rest, hreaches, hplaces, hfirst, hfile, rfl⟩
    rcases hcause with ⟨hload, rfl⟩ | ⟨file, hload, hwork⟩
    · have lintable := (mem_candidates hplaces).mp (List.mem_append_right _ List.mem_cons_self)
      obtain ⟨hf, bytes, hread, hbytes⟩ := load_eq_error lintable.1 hfile hload
      refine .inr (.inl ⟨before, path, first, place, _, bytes, hreachesFile, hf, hread, hbytes,
        fun shares => ?_⟩)
      obtain ⟨hnone, earlier, files, hearlier, hfiles, hplace, hchanges⟩ :=
        hreachesFile.changes shares
      -- The run writes texts only, so bytes that are no text have been there from the start.
      exact ⟨hnone, hchanges.entryAt?_of_undecodable hread hbytes, earlier, files, hearlier,
        hfiles, hplace, hchanges⟩
    · exact .inr (.inr ⟨before, path, first, place, _, reached, file, hreachesFile, hload, hwork⟩)

end Reaching

section Garbled

open scoped Comparison

def firstPlace : Path := ⟨["a.py".toList]⟩

def garbledPlace : Path := ⟨["b.py".toList]⟩

def lastPlace : Path := ⟨["c.py".toList]⟩

/-- Three modules; the bytes of the second one are no text. -/
def garbledStore : Store :=
  { entries :=
      [(firstPlace, .file (Text.encode "ok".toList)), (garbledPlace, .file [0xff]),
        (lastPlace, .file (Text.encode "ok".toList))] }

/-- Only the rule that puts brackets around texts. -/
def bracketed : Configuration := { registry := { kinds := [Rule.bracketing.kind] } }

theorem bracketed_sharesCorrection : bracketed.SharesCorrection := by
  intro d rules hrules r hr
  rcases Configuration.mem_rulesFor hrules hr with hmem | hmem
  · cases hmem
  · unfold Rule.SharesCorrection
    rw [List.mem_singleton.mp hmem]
    rfl

theorem candidates_garbled :
    candidates garbledStore .root = .ok [firstPlace, garbledPlace, lastPlace] := rfl

/-- The run comes to the first module, which rules can work on, and to the second one. -/
theorem reachesFile_garbled
    (h : ReachesFile bracketed garbledStore [.root] before path first place made reached) :
    before = [] ∧ path = .root ∧
      (place = firstPlace ∧ reached = garbledStore ∨
        place = garbledPlace ∧ load reached place = .error .undecodable) := by
  obtain ⟨early, between, late, rest, ⟨⟨later, hpaths⟩, hthrough⟩, hplaces, hrun, -, -⟩ := h
  cases before with
  | cons p more => simp at hpaths
  | nil =>
    cases hpaths
    cases (congrArg Prod.snd hthrough : garbledStore = between)
    refine ⟨rfl, rfl, ?_⟩
    have hlist := Except.ok.inj (candidates_garbled.symm.trans hplaces)
    match first, hlist with
    | [], hlist =>
      cases hlist
      exact .inl ⟨rfl, (congrArg Prod.snd hrun).symm⟩
    | [p], hlist =>
      cases hlist
      cases congrArg Prod.snd hrun
      exact .inr ⟨rfl, rfl⟩
    | p :: q :: more, hlist =>
      injection hlist with hp hlist
      injection hlist with hq hlist
      subst hp hq
      -- the second module ends the run, so that nothing behind it is come to
      cases congrArg Prod.fst hrun

theorem correct_stops_garbled :
    let worked := correct bracketed garbledStore [.root]
    worked.1 = .error .undecodable ∧
      worked.2.entryAt? firstPlace = some (.file (Text.encode "(<oy".toList)) ∧
      ∀ q, q ≠ firstPlace → worked.2.entryAt? q = garbledStore.entryAt? q := by
  intro worked
  have hfault : worked.1 = .error .undecodable := rfl
  refine ⟨hfault, rfl, ?_⟩
  rcases correct_stops (Prod.ext hfault rfl) with
    ⟨before, path, made, -, hf, -⟩ |
    ⟨before, path, first, place, made, bytes, hreaches, -, hread, hbytes, hchanges⟩ |
    ⟨before, path, first, place, made, reached, file, hreaches, hload, hwork⟩
  · cases hf
  · obtain ⟨rfl, rfl, hplace⟩ := reachesFile_garbled hreaches
    obtain ⟨-, hkept, earlier, found, hearlier, hfound, -, hrewritten⟩ :=
      hchanges bracketed_sharesCorrection
    have hnone : discover garbledStore [] = .ok [] := rfl
    have hall : discover garbledStore [.root] = .ok [firstPlace, garbledPlace, lastPlace] := rfl
    cases hnone.symm.trans hearlier
    cases hall.symm.trans hfound
    obtain rfl : place = garbledPlace := by
      rcases hplace with ⟨rfl, hstart⟩ | ⟨hplace, -⟩
      · rw [hstart] at hread
        cases hread
        cases hbytes
      · exact hplace
    intro q hq
    rcases hrewritten.kept q with hsame | ⟨hmem | ⟨hmem, hle⟩, -⟩
    · exact hsame
    · cases hmem
    · simp only [List.mem_cons, List.not_mem_nil, or_false] at hmem
      rcases hmem with rfl | rfl | rfl
      · exact absurd rfl hq
      · exact hkept
      · exact absurd hle (by decide)
  · obtain ⟨-, -, ⟨rfl, rfl⟩ | ⟨rfl, hfails⟩⟩ := reachesFile_garbled hreaches
    · cases hload
      cases hwork
    · rw [hfails] at hload
      cases hload

/-- The first module has been corrected when the bytes of the second one turn out to be no text. -/
theorem correct_garbled_changes_store :
    let c : Configuration := { registry := { kinds := [Rule.bracketing.kind] } }
    let worked := correct c garbledStore [.root]
    worked.1 = .error .undecodable ∧
      garbledStore.entryAt? firstPlace = some (.file (Text.encode "ok".toList)) ∧
      worked.2.entryAt? firstPlace = some (.file (Text.encode "(<oy".toList)) := by
  exact ⟨rfl, rfl, rfl⟩

end Garbled

end Project

end StyleRules
