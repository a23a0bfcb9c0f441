import StyleRules.Conformance.Correcting
import StyleRules.Proofs.Isolation
import StyleRules.Proofs.Positions
import StyleRules.Proofs.Storage
import StyleRules.SyntaxTree.Comparison

namespace StyleRules

namespace Marked

theorem stripFrom_offset_bounds {marker : Text} {skip offset o : Nat} {text : Text}
    (h : o ∈ (stripFrom marker skip offset text).offsets) :
    offset ≤ o ∧ o ≤ offset + (stripFrom marker skip offset text).text.length := by
  fun_induction stripFrom marker skip offset text with
  | case1 => simp at h
  | case2 offset c rest k ih => exact ih h
  | case3 offset c rest _ m ih =>
    rcases List.mem_cons.mp h with rfl | h
    · simp
    · exact ih h
  | case4 offset c rest _ m ih =>
    have := ih h
    simp only [List.length_cons, m]
    omega

/-- Markers stand within the stripped text or at its end. -/
theorem offset_le_of_strip {text : Text} {o : Nat} (h : o ∈ (strip text).offsets) :
    o ≤ (strip text).text.length := by
  have := (stripFrom_offset_bounds h).2
  simpa [strip] using this

theorem hasMarkers_iff (m : Marked) : m.hasMarkers = true ↔ m.offsets ≠ [] := by
  simp [hasMarkers]

end Marked

namespace Conformance

/-- The file that a correction case is corrected in. -/
def scratchFile (d : Dialect) (scratch : Path) (before : Text) (bench : Bench) : SourceFile :=
  { contents := (Marked.strip before).text
    dialect := d
    path := some (bench.store.freshPath scratch (d.extensions.headD [])) }

theorem zip_any_ne_eq_false_iff (xs ys : List Location) (hlen : xs.length = ys.length) :
    ((xs.zip ys).any fun (a, b) => a != b) = false ↔ xs = ys := by
  induction xs generalizing ys with
  | nil => simp [List.length_eq_zero_iff.mp hlen.symm]
  | cons x xs ih =>
    cases ys with
    | nil => simp at hlen
    | cons y ys =>
      have hr := ih ys (by simpa using hlen)
      rw [List.zip_cons_cons, List.any_cons, Bool.or_eq_false_iff, hr]
      simp

/-- Nothing is said about the corrections exactly if there are as many as expected, at the
locations expected where there are markers. -/
theorem compareCorrections_eq_nil_iff {check : Check} {before expected : Text} {marked : Bool}
    {actual wanted : List Location} :
    compareCorrections check before marked expected actual wanted = [] ↔
      if marked then actual = wanted
      else actual.length = if before = expected then 0 else 1 := by
  unfold compareCorrections
  cases marked with
  | false => simp
  | true =>
    by_cases hlen : actual.length = wanted.length
    · have hz := zip_any_ne_eq_false_iff actual wanted hlen
      by_cases heq : actual = wanted
      · have hf := hz.mpr heq
        simp only [if_true, if_pos hlen, hf]
        simpa using heq
      · have hf : ¬_ := fun hf => heq (hz.mp hf)
        rw [Bool.not_eq_false] at hf
        simp only [if_true, if_pos hlen, hf]
        simpa using heq
    · have hne : actual ≠ wanted := fun h => hlen (congrArg List.length h)
      simp [hlen, hne]

theorem compareContents_eq_nil_iff {check : Check} {contents expected : Text} :
    compareContents check contents expected = [] ↔ contents = expected := by
  unfold compareContents
  split
  next he => exact ⟨fun _ => he, fun _ => rfl⟩
  next he => exact ⟨fun h => absurd h (List.cons_ne_nil _ _), fun h => absurd h he⟩

theorem comparePersisted_eq_nil_iff {check : Check} {path : Path} {expected contents : Text}
    {store : Store} (h : store.read path = .ok (Text.encode contents)) :
    comparePersisted check path expected store = [] ↔ contents = expected := by
  unfold comparePersisted
  simp only [h, Text.decode?_encode]
  split
  next he => exact ⟨fun _ => he, fun _ => rfl⟩
  next he => exact ⟨fun h => absurd h (List.cons_ne_nil _ _), fun h => absurd h he⟩

/-- Corrections listed by ascending offset are sorted by location already. -/
theorem sortOn_corrections (r : Rule) (f : SourceFile) {made : List Edit}
    (ascending : made.Pairwise fun a b => a.stop ≤ b.offset)
    (inside : ∀ e ∈ made, e.stop ≤ f.contents.length) :
    (Location.sortOn (·.location) (made.map fun e => r.correctionAt (f.locate e.offset))).map
      (·.location) = made.map fun e => f.locate e.offset := by
  have sorted : (made.map fun e => r.correctionAt (f.locate e.offset)).Pairwise
      fun a b => a.location.atMost b.location := by
    apply List.pairwise_map.mpr
    apply ascending.imp_of_mem
    intro a b _ hb h
    have := a.offset_le_stop
    have := b.offset_le_stop
    have := inside b hb
    exact SourceFile.locate_atMost (by omega) (by omega)
  rw [Location.sortOn, sortBy_eq_self sorted, List.map_map]
  rfl

theorem map_locate_eq_iff (f : SourceFile) (made : List Edit) (offsets : List Nat)
    (inside : ∀ e ∈ made, e.offset ≤ f.contents.length)
    (within : ∀ o ∈ offsets, o ≤ f.contents.length) :
    (made.map fun e => f.locate e.offset) = offsets.map f.locate ↔
      made.map (·.offset) = offsets := by
  induction made generalizing offsets with
  | nil => cases offsets <;> simp
  | cons e made ih =>
    cases offsets with
    | nil => simp
    | cons o offsets =>
      have hr := ih offsets (fun a ha => inside a (List.mem_cons_of_mem e ha))
        (fun a ha => within a (List.mem_cons_of_mem o ha))
      have ho : f.locate e.offset = f.locate o ↔ e.offset = o := by
        constructor
        · exact SourceFile.locate_injective (inside e (by simp)) (within o (by simp))
        · rintro rfl
          rfl
      rw [List.map_cons, List.map_cons, List.map_cons, List.cons_eq_cons, List.cons_eq_cons]
      exact and_congr ho hr

/-- Edits are where they are asked for exactly if they start at the markers, or if there are no
markers and they are as many as asked for. -/
theorem places_asked_iff (f : SourceFile) (marked : Marked) {made : List Edit} (asked : Nat)
    (inside : ∀ e ∈ made, e.offset ≤ f.contents.length)
    (within : ∀ o ∈ marked.offsets, o ≤ f.contents.length) :
    (if marked.hasMarkers then
        (made.map fun e => f.locate e.offset) = marked.offsets.map f.locate
      else (made.map fun e => f.locate e.offset).length = asked) ↔
      (marked.offsets ≠ [] ∧ made.map (·.offset) = marked.offsets) ∨
        (marked.offsets = [] ∧ made.length = asked) := by
  have hmap := map_locate_eq_iff f made marked.offsets inside within
  by_cases hm : marked.hasMarkers
  · have ho := (Marked.hasMarkers_iff marked).mp hm
    simp only [hm, if_true, hmap]
    simp [ho]
  · have ho : marked.offsets = [] := by
      by_contra h
      exact hm ((Marked.hasMarkers_iff marked).mpr h)
    simp only [hm, ho, List.length_map]
    simp

end Conformance

namespace SourceFile

/-- What has been written as the encoding of a text is loaded as that text. -/
theorem load_of_read {store : Store} {path : Path} {contents : Text} (d : Dialect)
    (h : store.read path = .ok (Text.encode contents)) :
    load store path d = .ok { contents, dialect := d, path := some path } := by
  unfold load
  simp only [h, Text.decode?_encode]

end SourceFile

namespace Rule

/-- Where a stored file can be written, its correction succeeds, and store and memory hold the
contents with the accepted edits spliced in. -/
theorem correct_of_writable [Parser] {r : Rule} (plain : r.CorrectsPlainly) {desk : Desk} {path : Path}
    {edits : List Edit} (proposed : (r.proposals desk.file desk.cache).1 = .ok edits)
    (inside : ∀ e ∈ edits, e.stop ≤ desk.file.contents.length)
    (stored : desk.file.path = some path)
    (same : desk.store.read path = .ok (Text.encode desk.file.contents))
    (writable : ∀ bytes, ∃ written, desk.store.write path bytes = .ok written) :
    ∃ after, r.correct desk = (.ok ((r.accepted desk.file edits).map fun e =>
        r.correctionAt (desk.file.locate e.offset)), after) ∧
      after.file.contents = Edit.splice desk.file.contents (r.accepted desk.file edits) ∧
      after.store.read path =
        .ok (Text.encode (Edit.splice desk.file.contents (r.accepted desk.file edits))) := by
  obtain ⟨cache, hc⟩ := correct_of_proposed plain proposed
  rw [applyAll_accepted r inside] at hc
  by_cases hn : r.accepted desk.file edits = []
  · rw [if_pos hn] at hc
    refine ⟨{ desk with cache }, ?_, ?_, ?_⟩
    · rw [hc, hn]
      rfl
    · rw [hn]
      exact (Edit.spliceFrom_nil 0 desk.file.contents).symm
    · rw [hn, show Edit.splice desk.file.contents [] = desk.file.contents from
        Edit.spliceFrom_nil 0 desk.file.contents]
      exact same
  · obtain ⟨written, hw⟩ :=
      writable (Text.encode (Edit.splice desk.file.contents (r.accepted desk.file edits)))
    rw [if_neg hn] at hc
    simp only [Desk.replaceContents, stored, hw] at hc
    exact ⟨_, hc, rfl, Store.read_write hw⟩

end Rule

namespace Conformance

/-- What is compared once a case has been written, loaded and corrected. -/
theorem verifyCorrection_of_correct [Parser] {c : Configuration} {d : Dialect} {scratch path : Path}
    {before : Text} {bench : Bench} {store : Store} (check : Check) (expected : Text)
    {corrections : List Correction} {after : Desk}
    (hpath : bench.store.freshPath scratch (d.extensions.headD []) = path)
    (hw : bench.store.write path (Text.encode (Marked.strip before).text) = .ok store)
    (hc : c.correct
        { file := scratchFile d scratch before bench
          cache := (bench.cache.clear.lineIndex (Marked.strip before).text).2
          store } = (.ok corrections, after)) :
    (verifyCorrection c d scratch check before expected bench).1 =
      .ok (compareCorrections check (Marked.strip before).text (Marked.strip before).hasMarkers
          expected ((Location.sortOn (·.location) corrections).map (·.location))
          ((Marked.strip before).offsets.map (scratchFile d scratch before bench).locate)
        ++ compareContents check after.file.contents expected
        ++ comparePersisted check path expected after.store) ∧
      (verifyCorrection c d scratch check before expected bench).2.store = after.store := by
  have hload := SourceFile.load_of_read d (Store.read_write hw)
  have hfile : scratchFile d scratch before bench =
      { contents := (Marked.strip before).text, dialect := d, path := some path } := by
    rw [scratchFile, hpath]
  have hindex := ParseCache.lineIndex_fst bench.cache.clear (Marked.strip before).text
  rw [hfile] at hc ⊢
  unfold verifyCorrection
  simp only [hpath, hw, hload, hc, hindex]
  exact ⟨rfl, trivial⟩

/-- The verification of a correction passes exactly if the contents with the accepted edits spliced
in are those expected and the accepted edits start where they are expected to. -/
theorem verifyCorrection_passes_iff [Parser] {c : Configuration} {r : Rule} {d : Dialect}
    {scratch : Path} {check : Check} {before expected : Text} {bench : Bench} {edits : List Edit}
    (isolated : c.Isolates r) (dialect : r.kind.dialect.name = d.name)
    (plain : r.CorrectsPlainly) (ready : bench.store.isDirectory scratch)
    (proposed : (r.proposals (scratchFile d scratch before bench)
      (bench.cache.clear.lineIndex (Marked.strip before).text).2).1 = .ok edits)
    (inside : ∀ e ∈ edits, e.stop ≤ (Marked.strip before).text.length) :
    let marked := Marked.strip before
    let made := r.accepted (scratchFile d scratch before bench) edits
    let result := Edit.splice marked.text made
    ∃ failures after,
      verifyCorrection c d scratch check before expected bench = (.ok failures, after) ∧
      (failures = [] ↔ expected = result ∧
        ((marked.offsets ≠ [] ∧ made.map (·.offset) = marked.offsets) ∨
          (marked.offsets = [] ∧ made.length = if marked.text = expected then 0 else 1))) ∧
      after.store.read (bench.store.freshPath scratch (d.extensions.headD [])) =
        .ok (Text.encode result) := by
  intro marked made result
  obtain ⟨path, hpath⟩ :
    ∃ path, bench.store.freshPath scratch (d.extensions.headD []) = path := ⟨_, rfl⟩
  obtain ⟨hparent, hne, hnone⟩ := bench.store.freshPath_spec scratch (d.extensions.headD [])
  rw [hpath] at hparent hne hnone ⊢
  have hdirectory : bench.store.isDirectory path = false := by
    rw [Store.isDirectory, hnone]
    rfl
  have hw : bench.store.write path (Text.encode marked.text) =
      .ok (bench.store.put path (.file (Text.encode marked.text))) :=
    Store.write_eq_ok_iff.mpr ⟨hdirectory, by rwa [hparent], rfl⟩
  have hstop : ∀ e ∈ made, e.stop ≤ marked.text.length :=
    fun e he => inside e ((Rule.accepted_subperm r _ edits).subset he)
  let desk : Desk :=
    { file := scratchFile d scratch before bench
      cache := (bench.cache.clear.lineIndex marked.text).2
      store := bench.store.put path (.file (Text.encode marked.text)) }
  have hstored : desk.file.path = some path := congrArg some hpath
  obtain ⟨after, hcorrect, hcontents, hpersisted⟩ := Rule.correct_of_writable plain proposed
    inside hstored (Store.read_write hw) (fun _ => Store.write_write hw (by rwa [hparent]))
  rw [← Configuration.correct_of_rulesFor (isolated.rulesFor dialect)] at hcorrect
  obtain ⟨hfailures, hstore⟩ := verifyCorrection_of_correct check expected hpath hw hcorrect
  rw [sortOn_corrections r _ (Rule.accepted_apart r _ edits) hstop] at hfailures
  refine ⟨_, _, Prod.ext hfailures rfl, ?_, by rw [hstore]; exact hpersisted⟩
  have hcount := places_asked_iff (scratchFile d scratch before bench) marked
    (if marked.text = expected then 0 else 1)
    (fun e he => Nat.le_trans e.offset_le_stop (hstop e he))
    (fun o ho => Marked.offset_le_of_strip ho)
  rw [List.append_eq_nil_iff, List.append_eq_nil_iff, compareCorrections_eq_nil_iff,
    compareContents_eq_nil_iff, comparePersisted_eq_nil_iff hpersisted, hcontents]
  constructor
  · rintro ⟨⟨hc, heq⟩, _⟩
    exact ⟨heq.symm, hcount.mp hc⟩
  · rintro ⟨heq, hc⟩
    exact ⟨⟨hcount.mpr hc, heq.symm⟩, heq.symm⟩

open scoped Comparison

theorem verifyCorrection_passes_weak :
    let r : Rule := { kind := .weakDelegate, settings := {} }
    let c : Configuration :=
      { onlyRules := some ["weak_delegate".toList], configured := [r], registry := .standard }
    let scratch : Path := ⟨["tmp".toList]⟩
    let bench : Bench := { store := { entries := [(scratch, .directory)] } }
    let before := "class A \x7b ↓var delegate: D? \x7d".toList
    let expected := "class A \x7b weak var delegate: D? \x7d".toList
    let edits : List Edit := [⟨10, 0, "weak ".toList⟩]
    c.Isolates r ∧ r.kind.dialect.name = Dialect.swift.name ∧ r.CorrectsPlainly ∧
      bench.store.isDirectory scratch ∧
      (r.proposals (scratchFile .swift scratch before bench)
        (bench.cache.clear.lineIndex (Marked.strip before).text).2).1 = .ok edits ∧
      (∀ e ∈ edits, e.stop ≤ (Marked.strip before).text.length) ∧
      ∃ after,
        verifyCorrection c .swift scratch .corrections before expected bench = (.ok [], after) ∧
        after.store.read (bench.store.freshPath scratch ".swift".toList) =
          .ok (Text.encode expected) := by
  intro r c scratch bench before expected edits
  have isolated : c.Isolates r := ⟨Registry.standard_distinct, rfl, .null, rfl⟩
  have plain : r.CorrectsPlainly := ⟨_, rfl, rfl, rfl⟩
  have ready : bench.store.isDirectory scratch := by decide
  have proposed : (r.proposals (scratchFile .swift scratch before bench)
      (bench.cache.clear.lineIndex (Marked.strip before).text).2).1 = .ok edits := by
    decide +kernel
  have inside : ∀ e ∈ edits, e.stop ≤ (Marked.strip before).text.length := by decide
  have hdialect : r.kind.dialect.name = Dialect.swift.name := rfl
  refine ⟨isolated, hdialect, plain, ready, proposed, inside, ?_⟩
  obtain ⟨failures, after, hverify, hpass, hread⟩ :=
    @verifyCorrection_passes_iff _ c r .swift scratch .corrections before expected bench edits
      isolated hdialect plain ready proposed inside
  have hmade : r.accepted (scratchFile .swift scratch before bench) edits = edits := by
    decide +kernel
  rw [hmade] at hpass hread
  have hnone : failures = [] :=
    hpass.mpr ⟨by decide +kernel, Or.inl ⟨by decide, by decide⟩⟩
  have hresult : Edit.splice (Marked.strip before).text edits = expected := by decide +kernel
  rw [hnone] at hverify
  rw [hresult] at hread
  exact ⟨after, hverify, hread⟩

end Conformance

end StyleRules
