import StyleRules.Proofs.CorrectionCases
import StyleRules.Proofs.Disabling
import StyleRules.Proofs.ExampleChecks
import StyleRules.Proofs.LocationOrder
import StyleRules.Rule.Specimens
import StyleRules.SyntaxTree.Comparison

namespace StyleRules

namespace Marked

/-- Markers are met in the order of the text. -/
theorem stripFrom_ascending (marker : Text) (skip offset : Nat) (text : Text) :
    (stripFrom marker skip offset text).offsets.Pairwise (· ≤ ·) := by
  fun_induction stripFrom marker skip offset text with
  | case1 => exact List.Pairwise.nil
  | case2 offset c rest k ih => exact ih
  | case3 offset c rest _ m ih =>
    exact List.pairwise_cons.mpr ⟨fun o ho => (stripFrom_offset_bounds ho).1, ih⟩
  | case4 offset c rest _ m ih => exact ih

theorem strip_ascending (text : Text) : (strip text).offsets.Pairwise (· ≤ ·) :=
  stripFrom_ascending _ _ _ text

end Marked

namespace Conformance

/-- The places of the markers of an example. -/
def markerPlaces (d : Dialect) (example_ : Text) : List Location :=
  (Marked.strip example_).offsets.map (exampleFile d example_).locate

theorem markerPlaces_ascending (d : Dialect) (example_ : Text) :
    (markerPlaces d example_).Pairwise (·.atMost ·) := by
  apply List.pairwise_map.mpr
  apply (Marked.strip_ascending example_).imp_of_mem
  intro a b _ hb hab
  exact SourceFile.locate_atMost hab (Marked.offset_le_of_strip hb)

theorem markerPlaces_resolved {d : Dialect} {example_ : Text} {l : Location}
    (h : l ∈ markerPlaces d example_) : l.isResolved := by
  obtain ⟨o, ho, rfl⟩ := List.mem_map.mp h
  exact SourceFile.locate_resolved (Marked.offset_le_of_strip ho)

/-- Nothing is said about diagnostics exactly if their locations are those expected, one for
one. -/
theorem compareLocations_eq_nil_iff {text : Text} {expected : List Location}
    {found : List Diagnostic} :
    compareLocations text expected found = [] ↔ found.map (·.location) = expected := by
  have hfilter (differ : Location × Location → Bool) (pairs : List (Location × Location)) :
      pairs.filter differ = [] ↔ pairs.any differ = false := by
    simp [List.filter_eq_nil_iff]
  unfold compareLocations
  dsimp only
  simp only [List.append_eq_nil_iff, ite_eq_left_iff, List.cons_ne_nil, imp_false, not_not]
  constructor
  · rintro ⟨⟨_, hlength⟩, hmismatched⟩
    exact (zip_any_ne_eq_false_iff _ _ hlength).mp ((hfilter _ _).mp hmismatched)
  · intro h
    have hexpected : ∀ x ∈ found, x.location ∈ expected := by
      intro x hx
      rw [← h]
      exact List.mem_map_of_mem hx
    refine ⟨⟨⟨?_, ?_⟩, by rw [h]⟩, ?_⟩
    · simpa [List.filter_eq_nil_iff] using hexpected
    · simp [h]
    · exact (hfilter _ _).mpr ((zip_any_ne_eq_false_iff _ _ (by rw [h])).mpr h)

theorem check_of_mem_compareLocations {text : Text} {expected : List Location}
    {found : List Diagnostic} {x : Failure} (h : x ∈ compareLocations text expected found) :
    x.check = .localizedTriggering := by
  unfold compareLocations at h
  dsimp only at h
  simp only [List.mem_append] at h
  rcases h with ((h | h) | h) | h
  all_goals
    split at h
    · cases h
    · rw [List.mem_singleton.mp h]

/-- What is said about the diagnostics found on a triggering example. -/
def complaints (d : Dialect) (example_ : Text) (found : List Diagnostic) : List Failure :=
  if (Marked.strip example_).hasMarkers then
    compareLocations (Marked.strip example_).text (markerPlaces d example_)
      (Location.sortOn (·.location) found)
  else if Location.sortOn (·.location) found = [] then
    [{ check := .unlocalizedTriggering
       message := "triggering example did not violate".toList
       context := Render.source (Marked.strip example_).text }]
  else []

theorem complaints_eq_nil_iff {d : Dialect} {example_ : Text} {found : List Diagnostic} :
    complaints d example_ found = [] ↔
      ((Marked.strip example_).offsets = [] → found ≠ []) ∧
        ((Marked.strip example_).offsets ≠ [] →
          (found.map (·.location)).Perm (markerPlaces d example_)) := by
  have hmarkers := Marked.hasMarkers_iff (Marked.strip example_)
  unfold complaints
  by_cases hm : (Marked.strip example_).hasMarkers
  · have hoffsets := hmarkers.mp hm
    rw [if_pos hm, compareLocations_eq_nil_iff,
      Location.map_sortOn_eq_iff (markerPlaces_ascending d example_)]
    constructor
    · intro h
      exact ⟨fun hn => absurd hn hoffsets, fun _ => h⟩
    · rintro ⟨-, h⟩
      exact h hoffsets
  · have hoffsets : (Marked.strip example_).offsets = [] := by
      by_contra hn
      exact hm (hmarkers.mpr hn)
    have hsorted : Location.sortOn (·.location) found = [] ↔ found = [] := by
      have hperm : (Location.sortOn (·.location) found).Perm found := Location.sortOn_perm found
      constructor
      · intro h
        rw [h] at hperm
        exact hperm.nil_eq.symm
      · rintro rfl
        rfl
    rw [if_neg hm, ite_eq_right_iff, hsorted]
    constructor
    · intro h
      exact ⟨fun _ hn => List.cons_ne_nil _ _ (h hn), fun hn => absurd hoffsets hn⟩
    · rintro ⟨h, -⟩ hn
      exact absurd hn (h hoffsets)

/-- Where an example has markers, what is said about it is said about places. -/
theorem check_of_mem_complaints {d : Dialect} {example_ : Text} {found : List Diagnostic}
    {x : Failure} (marked : (Marked.strip example_).offsets ≠ [])
    (h : x ∈ complaints d example_ found) : x.check = .localizedTriggering := by
  rw [complaints, if_pos ((Marked.hasMarkers_iff _).mpr marked)] at h
  exact check_of_mem_compareLocations h

/-- What the check of triggering examples finds on one of them is what there is to say about the
diagnostics that the isolated rule is left with on it. -/
theorem checkTriggering_eq [Parser] {v : Conformance} {c : Configuration} {r : Rule} {d : Dialect}
    {bench : Bench} {found : Text → List Diagnostic} (isolated : c.Isolates r)
    (dialect : r.kind.dialect.name = d.name)
    (lists : ∀ e ∈ v.description.triggering,
      (r.diagnose (exampleFile d e) bench.cache.clear).1 = .ok (found e)) :
    ∃ after, v.checkTriggering c d bench =
      (.ok (v.description.triggering.flatMap fun e =>
        complaints d e (r.unsuppressed (exampleFile d e) (found e))), after) := by
  suffices h : ∃ after, v.checkTriggering c d bench =
      (.ok (v.description.triggering.flatMap fun e =>
        complaints d e (r.unsuppressed (exampleFile d e) (found e))), after) ∧
      after.cache.languageFor d = bench.cache.languageFor d by
    obtain ⟨after, hgather, -⟩ := h
    exact ⟨after, hgather⟩
  unfold checkTriggering
  refine gather_eq_flatMap ?_ rfl
  intro e he now hnow
  -- The grammar is all that is left of the examples before this one.
  have hsame := r.diagnose_clear_congr (exampleFile d e) hnow
  obtain ⟨next, hfound, hnext⟩ :=
    violations_of_isolated isolated dialect (hsame.trans (lists e he))
  have hplaces : (Marked.strip e).offsets.map
      (fun o : Nat => SourceFile.place none (.ofText (Marked.strip e).text) o) =
        markerPlaces d e := rfl
  have hviolations : violations c d (Marked.strip e).text now =
      (.ok (r.unsuppressed (exampleFile d e) (found e)), next) := hfound
  simp only [hviolations]
  unfold complaints
  by_cases hmarkers : (Marked.strip e).hasMarkers
  · simp only [if_pos hmarkers, next.cache.lineIndex_fst, hplaces]
    refine ⟨_, rfl, ?_⟩
    rw [ParseCache.languageFor_lineIndex, hnext, hnow]
  · refine ⟨next, ?_, hnext.trans hnow⟩
    simp only [if_neg hmarkers]
    split
    next => rfl
    next => rfl

/-- The check of triggering examples passes exactly if the rule alone reports something on every
example without markers, and on the others as often at each place as markers stand there. -/
theorem checkTriggering_passes_iff [Parser] {v : Conformance} {c : Configuration} {r : Rule}
    {d : Dialect} {bench : Bench} {found : Text → List Diagnostic} (isolated : c.Isolates r)
    (dialect : r.kind.dialect.name = d.name)
    (lists : ∀ e ∈ v.description.triggering,
      (r.diagnose (exampleFile d e) bench.cache.clear).1 = .ok (found e)) :
    let places (e : Text) := (r.unsuppressed (exampleFile d e) (found e)).map (·.location)
    ∃ failures after, v.checkTriggering c d bench = (.ok failures, after) ∧
      (failures = [] ↔ ∀ e ∈ v.description.triggering,
        ((Marked.strip e).offsets = [] → places e ≠ []) ∧
          ((Marked.strip e).offsets ≠ [] → (places e).Perm (markerPlaces d e))) ∧
      ∀ e ∈ v.description.triggering, (Marked.strip e).offsets ≠ [] →
        ((∃ l, (places e).count l ≠ (markerPlaces d e).count l) ∨
          ∃ l ∈ places e, l.isResolved = false) →
        ∃ x ∈ failures, x.check = .localizedTriggering := by
  intro places
  obtain ⟨after, hcheck⟩ := checkTriggering_eq isolated dialect lists
  have hcomplaints (e : Text) :
      complaints d e (r.unsuppressed (exampleFile d e) (found e)) = [] ↔
        ((Marked.strip e).offsets = [] → places e ≠ []) ∧
          ((Marked.strip e).offsets ≠ [] → (places e).Perm (markerPlaces d e)) := by
    rw [complaints_eq_nil_iff, ne_eq (places e), List.map_eq_nil_iff]
  refine ⟨_, after, hcheck, ?_, ?_⟩
  · rw [List.flatMap_eq_nil_iff]
    exact forall₂_congr fun e _ => hcomplaints e
  · intro e he hmarkers hwrong
    have hperm : ¬ (places e).Perm (markerPlaces d e) := by
      intro hperm
      rcases hwrong with ⟨l, hl⟩ | ⟨l, hl, hplaceless⟩
      · exact hl (hperm.count_eq l)
      · have hresolved := markerPlaces_resolved (hperm.mem_iff.mp hl)
        rw [hplaceless] at hresolved
        cases hresolved
    have hsome : complaints d e (r.unsuppressed (exampleFile d e) (found e)) ≠ [] :=
      fun hnone => hperm (((hcomplaints e).mp hnone).2 hmarkers)
    obtain ⟨x, hx⟩ := List.exists_mem_of_ne_nil _ hsome
    exact ⟨x, List.mem_flatMap.mpr ⟨e, he, hx⟩, check_of_mem_complaints hmarkers hx⟩

open scoped Comparison

theorem checkTriggering_passes_assignment :
    let r : Rule :=
      { kind := Specimen.assignmentRule "assignment" "AssignmentRule" 0 1, settings := {} }
    let c : Configuration :=
      { onlyRules := some ["assignment".toList], configured := [r]
        registry := { kinds := [r.kind] } }
    let v : Conformance :=
      { description :=
          { r.kind.description with
            triggering := ["a ↓= 1\nb ↓= 2\n".toList, "c = 3\n".toList] }
        scratch := ⟨["tmp".toList]⟩ }
    c.Isolates r ∧ r.kind.dialect.name = Dialect.python.name ∧
      (∀ e ∈ v.description.triggering, ∃ found,
        (r.diagnose (exampleFile .python e) {}).1 = .ok found) ∧
      ∃ after, v.checkTriggering c .python {} = (.ok [], after) := by
  intro r c v
  have isolated : c.Isolates r := ⟨List.nodup_singleton _, rfl, .null, rfl⟩
  have dialect : r.kind.dialect.name = Dialect.python.name := rfl
  have lists (e : Text) : (r.diagnose (exampleFile .python e) {}).1 =
      .ok (((r.diagnose (exampleFile .python e) {}).1).toOption.getD []) := rfl
  refine ⟨isolated, dialect, fun e _ => ⟨_, lists e⟩, ?_⟩
  obtain ⟨failures, after, hcheck, hpass, -⟩ :=
    @checkTriggering_passes_iff _ v c r .python {} _ isolated dialect fun e _ => lists e
  have hnone : failures = [] := hpass.mpr (by decide +kernel)
  rw [hnone] at hcheck
  exact ⟨after, hcheck⟩

end Conformance

end StyleRules
