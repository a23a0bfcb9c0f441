import StyleRules.Proofs.Sorting
import StyleRules.Proofs.Splicing
import StyleRules.Rule.Literal
import Mathlib.Data.List.Perm.Subperm
import StyleRules.SyntaxTree.Comparison

namespace StyleRules

namespace Edit

theorem notBefore_iff {a b : Edit} :
    a.notBefore b ↔ b.offset < a.offset ∨ (b.offset = a.offset ∧ b.stop ≤ a.stop) := by
  simp [notBefore]

theorem fromLast_perm (edits : List Edit) : (fromLast edits).Perm edits := sortBy_perm edits

/-- Going backwards, no edit stands before one that starts later or reaches further. -/
theorem fromLast_pairwise (edits : List Edit) :
    (fromLast edits).Pairwise fun a b => a.notBefore b := by
  apply sortBy_pairwise
  · intro a b
    rw [notBefore_iff, notBefore_iff]
    omega
  · intro a b c hab hbc
    rw [notBefore_iff] at hab hbc ⊢
    omega

/-- Edits of one stretch keep the order of the proposals. -/
theorem fromLast_filter_eq (edits : List Edit) (offset stop : Nat) :
    (fromLast edits).filter (fun e => e.offset = offset ∧ e.stop = stop) =
      edits.filter fun e => e.offset = offset ∧ e.stop = stop := by
  apply sortBy_filter
  intro a b ha hb
  simp only [decide_eq_true_eq] at ha hb
  exact notBefore_iff.mpr (Or.inr ⟨by omega, by omega⟩)

/-- Edits in ascending order are gone through backwards. -/
theorem fromLast_of_ascending {edits : List Edit}
    (h : edits.Pairwise fun a b => a.offset < b.offset) : fromLast edits = edits.reverse := by
  induction edits with
  | nil => rfl
  | cons e edits ih =>
    obtain ⟨hfirst, hrest⟩ := List.pairwise_cons.mp h
    have hplace : sortBy.place notBefore e edits.reverse = edits.reverse ++ [e] := by
      apply sortBy_place_eq_append
      intro a ha
      have := hfirst a (List.mem_reverse.mp ha)
      apply Bool.eq_false_iff.mpr
      intro hn
      rcases notBefore_iff.mp hn with hlt | ⟨heq, -⟩
      · omega
      · omega
    rw [List.reverse_cons, ← hplace, ← ih hrest]
    rfl

/-- The two edits cannot both be made: neither ends before the other starts. -/
def Overlaps (a b : Edit) : Prop := a.offset < b.stop ∧ b.offset < a.stop

variable {α : Type} {allowed : Edit → Option α}

/-- Insertions at different offsets never overlap: all are kept that are allowed. -/
theorem keep_insertions {limit : Option Nat} {edits : List Edit}
    (hlimit : ∀ n ∈ limit, ∀ e ∈ edits, e.offset ≤ n)
    (h : edits.Pairwise fun a b => b.offset < a.offset) (insertions : ∀ e ∈ edits, e.length = 0) :
    (keep allowed limit edits).map (·.1) = edits.filter fun e => (allowed e).isSome := by
  induction edits generalizing limit with
  | nil => rfl
  | cons e edits ih =>
    obtain ⟨hfirst, hrest⟩ := List.pairwise_cons.mp h
    have hinsertions := fun a ha => insertions a (List.mem_cons_of_mem e ha)
    unfold keep
    cases ha : allowed e with
    | none =>
      dsimp only
      rw [ih (fun n hn a ha => hlimit n hn a (List.mem_cons_of_mem e ha)) hrest hinsertions,
        List.filter_cons_of_neg (by simp [ha])]
    | some a =>
      have hfits : limit.all (e.stop ≤ ·) = true := by
        rw [Option.all_eq_true]
        intro n hn
        have := hlimit n hn e (by simp)
        have := insertions e (by simp)
        have hstop : e.stop ≤ n := by
          unfold stop
          omega
        exact decide_eq_true hstop
      have hnext : ∀ n ∈ some e.offset, ∀ a ∈ edits, a.offset ≤ n := by
        intro n hn a ha
        cases Option.mem_some.mp hn
        exact Nat.le_of_lt (hfirst a ha)
      simp only [if_pos hfits, List.map_cons]
      rw [ih hnext hrest hinsertions, List.filter_cons_of_pos (by simp [ha])]

theorem keep_sublist (limit : Option Nat) (edits : List Edit) :
    ((keep allowed limit edits).map (·.1)).Sublist edits := by
  induction edits generalizing limit with
  | nil => exact List.Sublist.refl _
  | cons e rest ih =>
    unfold keep
    split
    next => exact (ih limit).cons e
    next =>
      split
      next => exact (ih (some e.offset)).cons_cons e
      next => exact (ih limit).cons e

theorem keep_allowed {limit : Option Nat} {edits : List Edit} {k : Edit × α}
    (h : k ∈ keep allowed limit edits) : allowed k.1 = some k.2 := by
  induction edits generalizing limit with
  | nil => simp [keep] at h
  | cons e rest ih =>
    unfold keep at h
    split at h
    next => exact ih h
    next a ha =>
      split at h
      next =>
        rcases List.mem_cons.mp h with rfl | h
        · exact ha
        · exact ih h
      next => exact ih h

theorem keep_stop_le {limit : Nat} {edits : List Edit} {k : Edit × α}
    (h : k ∈ keep allowed (some limit) edits) : k.1.stop ≤ limit := by
  induction edits generalizing limit with
  | nil => simp [keep] at h
  | cons e rest ih =>
    unfold keep at h
    split at h
    next => exact ih h
    next =>
      split at h
      next hl =>
        have hstop : e.stop ≤ limit := by simpa using hl
        rcases List.mem_cons.mp h with rfl | h
        · exact hstop
        · have := ih h
          have := offset_le_stop e
          omega
      next => exact ih h

/-- Whatever is kept ends before everything kept earlier, although each edit is compared with the
one kept last only. -/
theorem keep_apart (limit : Option Nat) (edits : List Edit) :
    (keep allowed limit edits).Pairwise fun a b => b.1.stop ≤ a.1.offset := by
  induction edits generalizing limit with
  | nil => exact List.Pairwise.nil
  | cons e rest ih =>
    unfold keep
    split
    next => exact ih limit
    next =>
      split
      next => exact List.pairwise_cons.mpr ⟨fun _ hk => keep_stop_le hk, ih (some e.offset)⟩
      next => exact ih limit

/-- What is allowed is passed over only for an edit kept before that it overlaps. -/
theorem keep_maximal {limit : Option Nat} {edits : List Edit}
    (sorted : edits.Pairwise fun a b => a.notBefore b) {e : Edit} (he : e ∈ edits)
    (hallowed : (allowed e).isSome) :
    e ∈ (keep allowed limit edits).map (·.1) ∨
      (∃ a ∈ (keep allowed limit edits).map (·.1), e.Overlaps a) ∨ ∃ n ∈ limit, n < e.stop := by
  induction edits generalizing limit with
  | nil => simp at he
  | cons first rest ih =>
    obtain ⟨hfirst, hrest⟩ := List.pairwise_cons.mp sorted
    unfold keep
    cases ha : allowed first with
    | none =>
      rcases List.mem_cons.mp he with rfl | he
      · rw [ha] at hallowed
        cases hallowed
      · exact ih hrest he
    | some a =>
      dsimp only
      split
      next hfits =>
        rcases List.mem_cons.mp he with rfl | he
        · exact Or.inl (by simp)
        -- The limit is now where the first edit starts, and it starts no earlier than this one.
        · rcases @ih (some first.offset) hrest he with hkept | ⟨b, hb, hover⟩ | ⟨n, hn, hlt⟩
          · exact Or.inl (List.mem_cons_of_mem _ hkept)
          · exact Or.inr (Or.inl ⟨b, List.mem_cons_of_mem _ hb, hover⟩)
          · cases Option.mem_some.mp hn
            have hstart := first.offset_le_stop
            have hbefore := notBefore_iff.mp (hfirst e he)
            refine Or.inr (Or.inl ⟨first, by simp, ?_, hlt⟩)
            omega
      next hfits =>
        rcases List.mem_cons.mp he with rfl | he
        · cases limit with
          | none => exact absurd rfl hfits
          | some n => exact Or.inr (Or.inr ⟨n, rfl, by simpa using hfits⟩)
        · exact ih hrest he

end Edit

namespace SourceFile

/-- The place of an offset in the file as it is. -/
def locate (f : SourceFile) (offset : Nat) : Location :=
  place f.identifier (.ofText f.contents) offset

end SourceFile

namespace Rule

/-- The rule corrects files as rules share it, and directives are heeded. -/
def CorrectsPlainly (r : Rule) : Prop :=
  ∃ c, r.kind.corrector = some c ∧ c.heedsDirectives = true ∧ c.override = none

/-- The edits that are made in a file of those that the rule proposes for it, in ascending
order. -/
def accepted (r : Rule) (f : SourceFile) (proposed : List Edit) : List Edit :=
  ((r.acceptable f (.ofText f.contents) proposed).map (·.1)).reverse

/-- What edits have to fulfil so that a rule may make them all in a file. -/
structure MayMake (r : Rule) (f : SourceFile) (proposed made : List Edit) : Prop where
  subperm : made.Subperm proposed
  enabled : ∀ e ∈ made, f.isEnabled r.identifier (f.locate e.offset)
  apart : made.Pairwise fun a b => a.stop ≤ b.offset
  ascending : made.Pairwise fun a b =>
    a.offset < b.offset ∨ (a.offset = b.offset ∧ a.stop ≤ b.stop)
  /-- Where the rule is enabled an edit gives way only to one that is made and overlaps it. -/
  maximal : ∀ e ∈ proposed, f.isEnabled r.identifier (f.locate e.offset) →
    e ∈ made ∨ ∃ a ∈ made, e.Overlaps a
  /-- Of one and the same stretch only insertions are made more than once. -/
  insertions : made.Pairwise fun a b =>
    a.offset = b.offset → a.stop = b.stop → a.length = 0 ∧ b.length = 0
  /-- Edits of one stretch stand in reverse order of their proposal. -/
  reversed : ∀ offset stop,
    (made.filter fun e => e.offset = offset ∧ e.stop = stop).reverse.Sublist
      (proposed.filter fun e => e.offset = offset ∧ e.stop = stop)

/-- The place of an edit in a file, if the rule is enabled there. -/
def enabledPlace (r : Rule) (f : SourceFile) (e : Edit) : Option Location :=
  if f.isEnabled r.identifier (f.locate e.offset) then some (f.locate e.offset) else none

theorem isSome_enabledPlace {r : Rule} {f : SourceFile} {e : Edit} :
    (r.enabledPlace f e).isSome = f.isEnabled r.identifier (f.locate e.offset) := by
  unfold enabledPlace
  cases f.isEnabled r.identifier (f.locate e.offset) <;> rfl

/-- A rule that heeds directives may make the edits at places where it is enabled. -/
theorem acceptable_eq {r : Rule} (plain : r.CorrectsPlainly) (f : SourceFile)
    (proposed : List Edit) : r.acceptable f (.ofText f.contents) proposed =
      Edit.keep (r.enabledPlace f) none (Edit.fromLast proposed) := by
  obtain ⟨c, hc, hd, -⟩ := plain
  simp only [acceptable, hc, Option.all_some, hd, Bool.not_true, Bool.false_or]
  rfl

theorem acceptable_spec {r : Rule} (plain : r.CorrectsPlainly) {f : SourceFile}
    {proposed : List Edit} {k : Edit × Location}
    (h : k ∈ r.acceptable f (.ofText f.contents) proposed) :
    k.2 = f.locate k.1.offset ∧ f.isEnabled r.identifier k.2 := by
  rw [acceptable_eq plain] at h
  have hplace := Edit.keep_allowed h
  unfold enabledPlace at hplace
  split at hplace
  next he =>
    have hl := (Option.some.inj hplace).symm
    exact ⟨hl, by rwa [hl]⟩
  next => cases hplace

theorem accepted_apart (r : Rule) (f : SourceFile) (proposed : List Edit) :
    (r.accepted f proposed).Pairwise fun a b => a.stop ≤ b.offset := by
  apply List.pairwise_reverse.mpr
  exact List.pairwise_map.mpr (Edit.keep_apart _ _)

theorem accepted_reverse_sublist (r : Rule) (f : SourceFile) (proposed : List Edit) :
    (r.accepted f proposed).reverse.Sublist (Edit.fromLast proposed) := by
  rw [accepted, List.reverse_reverse]
  exact Edit.keep_sublist _ _

theorem accepted_subperm (r : Rule) (f : SourceFile) (proposed : List Edit) :
    (r.accepted f proposed).Subperm proposed :=
  (List.reverse_perm _).symm.subperm.trans
    ((accepted_reverse_sublist r f proposed).subperm.trans (Edit.fromLast_perm proposed).subperm)

theorem accepted_enabled {r : Rule} (plain : r.CorrectsPlainly) {f : SourceFile}
    {proposed : List Edit} {e : Edit} (h : e ∈ r.accepted f proposed) :
    f.isEnabled r.identifier (f.locate e.offset) := by
  obtain ⟨k, hk, rfl⟩ := List.mem_map.mp (List.mem_reverse.mp h)
  obtain ⟨hl, he⟩ := acceptable_spec plain hk
  rwa [hl] at he

theorem accepted_maximal {r : Rule} (plain : r.CorrectsPlainly) {f : SourceFile}
    {proposed : List Edit} {e : Edit} (he : e ∈ proposed)
    (henabled : f.isEnabled r.identifier (f.locate e.offset)) :
    e ∈ r.accepted f proposed ∨ ∃ a ∈ r.accepted f proposed, e.Overlaps a := by
  have hmem := (Edit.fromLast_perm proposed).mem_iff.mpr he
  rw [accepted, acceptable_eq plain]
  simp only [List.mem_reverse]
  rcases @Edit.keep_maximal _ _ none _ (Edit.fromLast_pairwise proposed) _ hmem
    (isSome_enabledPlace.trans henabled) with hkept | hover | ⟨n, hn, -⟩
  · exact Or.inl hkept
  · exact Or.inr hover
  · cases hn

theorem accepted_mayMake {r : Rule} (plain : r.CorrectsPlainly) (f : SourceFile)
    (proposed : List Edit) : r.MayMake f proposed (r.accepted f proposed) := by
  have apart := accepted_apart r f proposed
  refine ⟨accepted_subperm r f proposed, fun e he => accepted_enabled plain he, apart, ?_,
    fun e he => accepted_maximal plain he, ?_, ?_⟩
  · apply apart.imp
    intro a b h
    have := a.offset_le_stop
    have := b.offset_le_stop
    omega
  · apply apart.imp
    intro a b h ho hs
    simp only [Edit.stop] at h hs
    omega
  · intro offset stop
    have hs := (accepted_reverse_sublist r f proposed).filter
      fun e => e.offset = offset ∧ e.stop = stop
    rwa [List.filter_reverse, Edit.fromLast_filter_eq] at hs

theorem accepted_stop_le {r : Rule} {f : SourceFile} {proposed : List Edit}
    (inside : ∀ e ∈ proposed, e.stop ≤ f.contents.length) {e : Edit}
    (h : e ∈ r.accepted f proposed) : e.stop ≤ f.contents.length :=
  inside e ((accepted_subperm r f proposed).subset h)

/-- Of insertions proposed in ascending order those are made where the rule is enabled. -/
theorem accepted_of_insertions {r : Rule} (plain : r.CorrectsPlainly) {f : SourceFile}
    {proposed : List Edit} (h : proposed.Pairwise fun a b => a.offset < b.offset)
    (insertions : ∀ e ∈ proposed, e.length = 0) :
    r.accepted f proposed =
      proposed.filter fun e => f.isEnabled r.identifier (f.locate e.offset) := by
  rw [accepted, acceptable_eq plain, Edit.fromLast_of_ascending h,
    Edit.keep_insertions (by simp) (List.pairwise_reverse.mpr h)
      fun e he => insertions e (List.mem_reverse.mp he)]
  rw [List.filter_reverse, List.reverse_reverse]
  apply List.filter_congr
  intro e _
  exact isSome_enabledPlace

theorem acceptable_map_snd {r : Rule} (plain : r.CorrectsPlainly) (f : SourceFile)
    (proposed : List Edit) :
    (r.acceptable f (.ofText f.contents) proposed).reverse.map (·.2) =
      (r.accepted f proposed).map fun e => f.locate e.offset := by
  rw [accepted, ← List.map_reverse, List.map_map]
  apply List.map_congr_left
  intro k hk
  exact (acceptable_spec plain (List.mem_reverse.mp hk)).1

theorem correct_eq_makeEdits [Parser] {r : Rule} (plain : r.CorrectsPlainly) (desk : Desk) :
    r.correct desk = r.makeEdits desk := by
  obtain ⟨c, hc, _, hn⟩ := plain
  simp [correct, hc, hn]

end Rule

namespace Desk

/-- Writing new contents does not depend on what is cached. -/
theorem replaceContents_cache (desk : Desk) (cache : ParseCache) (contents : Text) :
    ({ desk with cache }).replaceContents contents =
      (desk.replaceContents contents).map fun written => { written with cache } := by
  unfold replaceContents
  cases desk.file.path with
  | none => rfl
  | some path =>
    dsimp only
    cases desk.store.write path (Text.encode contents) with
    | error f => rfl
    | ok store => rfl

theorem replaceContents_file {desk written : Desk} {contents : Text}
    (h : desk.replaceContents contents = .ok written) :
    written.file = { desk.file with contents } := by
  unfold replaceContents at h
  split at h
  next => cases Except.ok.inj h; rfl
  next =>
    split at h
    next => simp at h
    next => cases Except.ok.inj h; rfl

/-- Whatever contents the file gets, they can be written. -/
def Writable (desk : Desk) : Prop :=
  ∀ contents, ∃ written, desk.replaceContents contents = .ok written

theorem writable_of_path_eq_none {desk : Desk} (h : desk.file.path = none) : desk.Writable := by
  intro contents
  unfold replaceContents
  rw [h]
  exact ⟨_, rfl⟩

end Desk

namespace Rule

/-- What a correction does once the rule has proposed its edits. -/
theorem correct_of_proposals [Parser] {r : Rule} (plain : r.CorrectsPlainly) {desk : Desk}
    {edits : List Edit} {read cache : ParseCache}
    (hp : r.proposals desk.file desk.cache = (.ok edits, read))
    (hcache : (read.lineIndex desk.file.contents).2 = cache) :
    r.correct desk =
      if r.accepted desk.file edits = [] then (.ok [], { desk with cache })
      else
        match desk.replaceContents
          (Edit.applyAll desk.file.contents (r.accepted desk.file edits).reverse) with
        | .error f => (.error f, { desk with cache })
        | .ok written =>
          (.ok ((r.accepted desk.file edits).map fun e =>
              r.correctionAt (desk.file.locate e.offset)), { written with cache }) := by
  have hl : read.lineIndex desk.file.contents = (.ofText desk.file.contents, cache) :=
    Prod.ext (read.lineIndex_fst desk.file.contents) hcache
  rw [correct_eq_makeEdits plain, makeEdits, hp]
  simp only [hl]
  have hlocations := acceptable_map_snd plain desk.file edits
  unfold accepted at hlocations ⊢
  cases hk : r.acceptable desk.file (.ofText desk.file.contents) edits with
  | nil => rfl
  | cons k ks =>
    rw [hk] at hlocations
    have hne : ¬(((k :: ks).map (·.1)).reverse = []) := by simp
    simp only [if_neg hne, List.reverse_reverse, Desk.replaceContents_cache]
    cases desk.replaceContents (Edit.applyAll desk.file.contents ((k :: ks).map (·.1))) with
    | error f => rfl
    | ok written =>
      have hmade := congrArg (List.map r.correctionAt) hlocations
      simp only [List.map_map, Function.comp_def] at hmade
      exact congrArg (fun made => (Except.ok made, ({ written with cache } : Desk))) hmade

/-- What a correction does once the rule has proposed its edits, up to what it leaves in the
cache. -/
theorem correct_of_proposed [Parser] {r : Rule} (plain : r.CorrectsPlainly) {desk : Desk}
    {edits : List Edit} (proposed : (r.proposals desk.file desk.cache).1 = .ok edits) :
    ∃ cache, r.correct desk =
      if r.accepted desk.file edits = [] then (.ok [], { desk with cache })
      else
        match desk.replaceContents
          (Edit.applyAll desk.file.contents (r.accepted desk.file edits).reverse) with
        | .error f => (.error f, { desk with cache })
        | .ok written =>
          (.ok ((r.accepted desk.file edits).map fun e =>
              r.correctionAt (desk.file.locate e.offset)), { written with cache }) :=
  ⟨_, correct_of_proposals plain (Prod.ext proposed rfl) rfl⟩

theorem applyAll_accepted (r : Rule) {f : SourceFile} {proposed : List Edit}
    (inside : ∀ e ∈ proposed, e.stop ≤ f.contents.length) :
    Edit.applyAll f.contents (r.accepted f proposed).reverse =
      Edit.splice f.contents (r.accepted f proposed) :=
  Edit.applyAll_reverse_eq_splice (accepted_apart r f proposed)
    fun _ he => accepted_stop_le inside he

/-- Correcting a file splices edits into its contents that the rule may make together. -/
theorem correct_splices_accepted [Parser] {r : Rule} (plain : r.CorrectsPlainly) {desk : Desk}
    {edits : List Edit} (proposed : (r.proposals desk.file desk.cache).1 = .ok edits)
    (inside : ∀ e ∈ edits, e.stop ≤ desk.file.contents.length) :
    let made := r.accepted desk.file edits
    let contents := Edit.splice desk.file.contents made
    r.MayMake desk.file edits made ∧
      (made = [] → (r.correct desk).1 = .ok [] ∧ (r.correct desk).2.file = desk.file ∧
        (r.correct desk).2.store = desk.store) ∧
      (made ≠ [] → ∀ written, desk.replaceContents contents = .ok written →
        (r.correct desk).1 =
            .ok (made.map fun e => r.correctionAt (desk.file.locate e.offset)) ∧
          (r.correct desk).2.file = { desk.file with contents } ∧
          (r.correct desk).2.store = written.store) ∧
      (made ≠ [] → ∀ fault, desk.replaceContents contents = .error fault →
        (r.correct desk).1 = .error fault ∧ (r.correct desk).2.file = desk.file ∧
          (r.correct desk).2.store = desk.store) := by
  intro made contents
  obtain ⟨cache, hc⟩ := correct_of_proposed plain proposed
  rw [applyAll_accepted r inside] at hc
  refine ⟨accepted_mayMake plain desk.file edits, ?_, ?_, ?_⟩
  · intro hn
    rw [if_pos hn] at hc
    simp [hc]
  · intro hn written hw
    rw [if_neg hn, hw] at hc
    simp [hc, made, contents, Desk.replaceContents_file hw]
  · intro hn fault hw
    rw [if_neg hn, hw] at hc
    simp [hc]

/-- A rule that puts two brackets before every "ok" and proposes two replacements that overlap. -/
def bracketing : Rule :=
  { kind := LiteralRule.kind
      { description := { identifier := "bracketing".toList, name := [], summary := [] }
        needles := ["ok".toList]
        edits := some
          [{ replacement := "<".toList, length := some 0 },
            { replacement := "(".toList, length := some 0 },
            { replacement := "X".toList },
            { replacement := "y".toList, shift := 1, length := some 1 }] } [] []
    settings := {} }

open scoped Comparison

theorem correct_splices_accepted_bracketing :
    let desk : Desk :=
      { file := { contents := "ok\n# lintcheck:disable bracketing\nok".toList } }
    let proposed : List Edit :=
      [⟨0, 0, ['<']⟩, ⟨0, 0, ['(']⟩, ⟨0, 2, ['X']⟩, ⟨1, 1, ['y']⟩,
        ⟨34, 0, ['<']⟩, ⟨34, 0, ['(']⟩, ⟨34, 2, ['X']⟩, ⟨35, 1, ['y']⟩]
    bracketing.CorrectsPlainly ∧
      (bracketing.proposals desk.file desk.cache).1 = .ok proposed ∧
      (∀ e ∈ proposed, e.stop ≤ desk.file.contents.length) ∧
      bracketing.MayMake desk.file proposed [⟨0, 0, ['(']⟩, ⟨0, 0, ['<']⟩, ⟨1, 1, ['y']⟩] ∧
      (bracketing.correct desk).2.file.contents =
        "(<oy\n# lintcheck:disable bracketing\nok".toList := by
  intro desk proposed
  have plain : bracketing.CorrectsPlainly := ⟨_, rfl, rfl, rfl⟩
  have hproposed : (bracketing.proposals desk.file desk.cache).1 = .ok proposed := by
    decide +kernel
  have inside : ∀ e ∈ proposed, e.stop ≤ desk.file.contents.length := by decide
  have hmade : bracketing.accepted desk.file proposed =
      [⟨0, 0, ['(']⟩, ⟨0, 0, ['<']⟩, ⟨1, 1, ['y']⟩] := by decide +kernel
  obtain ⟨hmay, _, hwritten, _⟩ := correct_splices_accepted plain hproposed inside
  rw [hmade] at hmay hwritten
  obtain ⟨_, hfile, _⟩ := hwritten (List.cons_ne_nil _ _) _ rfl
  refine ⟨plain, hproposed, inside, hmay, ?_⟩
  rw [hfile]
  decide +kernel

end Rule

end StyleRules
