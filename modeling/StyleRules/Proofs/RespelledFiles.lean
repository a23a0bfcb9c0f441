import StyleRules.Proofs.ChainGrammar
import StyleRules.Proofs.Suppression
import Mathlib.Data.List.Induction

namespace StyleRules

namespace NoneComparison

section Step

variable {f : SourceFile} {place : Nat} {own u r : Text}

def locateChain (f : SourceFile) (chain : SyntaxTree) : Location :=
  SourceFile.placeByte f.identifier (.ofText f.contents) chain.start

/-- Whether directives leave the rule enabled where a chain stands. -/
def isEnabledAt (f : SourceFile) (v : SyntaxTree × List SyntaxTree) : Bool :=
  f.isEnabled description.identifier (locateChain f v.1)

/-- The violations in the tree of a file where the rule is not disabled. -/
def flagged (f : SourceFile) (t : SyntaxTree) : List (SyntaxTree × List SyntaxTree) :=
  (violations t).filter (isEnabledAt f)

/-- Whether a violation has an operator at none of the places. -/
def outlasts (places : List Int) (v : SyntaxTree × List SyntaxTree) : Bool :=
  v.2.any fun op => decide (op.start ∉ places)

/-- What is below the children of chains makes no difference to those that are flagged. -/
theorem countP_flagged_eq (f : SourceFile) (t : SyntaxTree) (places : List Int) :
    (flagged f t).countP (outlasts places) =
      (violationsAmong (chains t)).countP fun v => outlasts places v && isEnabledAt f v := by
  have hleaf (ops : List SyntaxTree) :
      (ops.map SyntaxTree.leaf).any (fun op => decide (op.start ∉ places)) =
        ops.any fun op => decide (op.start ∉ places) := List.any_map
  rw [flagged, List.countP_filter, violationsAmong_chains, List.countP_map]
  refine List.countP_congr fun v _ => ?_
  change _ ↔ ((v.2.map SyntaxTree.leaf).any _ && isEnabledAt f v) = true
  rw [hleaf, outlasts]

theorem placeByte_byteSize {before after : Text} (h : f.contents = before ++ after) :
    SourceFile.placeByte f.identifier (.ofText f.contents) (Text.byteSize before) =
      f.locate before.length := by
  unfold SourceFile.placeByte
  rw [h, Text.characterOffset?_byteSize, ← h]
  rfl

/-- What is no larger than the first of two parts of a text ends in it. -/
theorem exists_of_byteSize_le {before after first second : Text}
    (h : before ++ after = first ++ second) (hle : Text.byteSize before ≤ Text.byteSize first) :
    ∃ more, first = before ++ more ∧ after = more ++ second := by
  rcases List.append_eq_append_iff.mp h with ⟨more, rfl, rfl⟩ | ⟨more, rfl, rfl⟩
  · exact ⟨more, rfl, rfl⟩
  · rw [Text.byteSize_append] at hle
    obtain rfl : more = [] := Text.eq_nil_of_byteSize_eq_zero (by omega)
    exact ⟨[], by simp, rfl⟩

theorem replaces_of_fits {own : Text} (fits : (identityFor? own).isSome) (place : Nat) :
    Replaces (growth own) own (Respelling.inPlace place fits).word := by
  rcases cases_inPlace place fits with ⟨rfl, hword⟩ | ⟨rfl, hword⟩
  · rw [hword]
    exact ⟨Mask.quiet_of_all rfl, Mask.quiet_of_all rfl,
      ⟨'=', _, rfl, Or.inl rfl⟩, by decide⟩
  · rw [hword]
    exact ⟨Mask.quiet_of_all rfl, Mask.quiet_of_all rfl,
      ⟨'!', _, rfl, Or.inr rfl⟩, by decide⟩

/-- What starts at a character of a file, but not within the operator that is respelled, is placed
afterwards where that character is then. -/
theorem placeByte_inPlace (fits : (identityFor? own).isSome)
    (hplace : place = Text.byteSize (u ++ [' ']))
    (hcontents : f.contents = u ++ ' ' :: (own ++ ' ' :: r)) {before after : Text}
    (hsplit : f.contents = before ++ after) (hwithin : Text.byteSize before ≠ place + 1) :
    let respelled : SourceFile :=
      { f with contents := u ++ ' ' :: ((Respelling.inPlace place fits).word ++ ' ' :: r) }
    SourceFile.placeByte respelled.identifier (.ofText respelled.contents)
        ((Respelling.inPlace place fits).move (Text.byteSize before)) =
      respelled.locate (movedBehind (u.length + 1) (growth own) before.length) := by
  intro respelled
  obtain ⟨word, hword⟩ : ∃ word, (Respelling.inPlace place fits).word = word := ⟨_, rfl⟩
  have hreplaces := replaces_of_fits fits place
  have hsizeword := byteSize_word place fits
  have hlength := length_of_fits fits
  have hsize := byteSize_of_fits fits
  have hall (word : Text) : u ++ ' ' :: (word ++ ' ' :: r) = (u ++ [' ']) ++ (word ++ ' ' :: r) := by
    simp
  have hrespelled : respelled.contents = (u ++ [' ']) ++ (word ++ ' ' :: r) := by
    rw [← hall, ← hword]
  rw [hword] at hreplaces hsizeword
  rw [hsplit, hall] at hcontents
  by_cases hle : Text.byteSize before ≤ place
  · obtain ⟨more, hmore, -⟩ := exists_of_byteSize_le hcontents (hplace ▸ hle)
    have hcut : before.length ≤ u.length + 1 := by
      have := congrArg List.length hmore
      rw [List.length_append, List.length_append, List.length_singleton] at this
      omega
    rw [move_of_le fits hle, movedBehind, if_pos hcut]
    refine @placeByte_byteSize respelled before (more ++ (word ++ ' ' :: r)) ?_
    rw [hrespelled, hmore, List.append_assoc]
  · have hbefore : (u ++ [' '] ++ own) ++ ' ' :: r = before ++ after := by
      rw [hcontents, List.append_assoc]
    obtain ⟨more, rfl, hmore⟩ := exists_of_byteSize_le hbefore
      (by rw [Text.byteSize_append]; omega)
    have hcount : (u ++ [' '] ++ own ++ more).length + growth own =
        (u ++ [' '] ++ word ++ more).length := by
      simp only [List.length_append, hreplaces.length]
      omega
    have hbytes : Text.byteSize (u ++ [' '] ++ own ++ more) + growth own =
        Text.byteSize (u ++ [' '] ++ word ++ more) := by
      simp only [Text.byteSize_append, hsize, hsizeword]
      omega
    have hcut : ¬(u ++ [' '] ++ own ++ more).length ≤ u.length + 1 := by
      simp only [List.length_append, List.length_singleton]
      omega
    rw [move_of_lt fits (by omega), hbytes, movedBehind, if_neg hcut, hcount]
    refine @placeByte_byteSize respelled (u ++ [' '] ++ word ++ more) after ?_
    rw [hrespelled, hmore]
    simp only [List.append_assoc]

/-- A chain that is enabled once an operator is respelled was enabled before. -/
theorem isEnabledAt_of_respelled (fits : (identityFor? own).isSome)
    (hpython : f.dialect = .python) (hplace : place = Text.byteSize (u ++ [' ']))
    (hcontents : f.contents = u ++ ' ' :: (own ++ ' ' :: r))
    {v w : SyntaxTree × List SyntaxTree} (hboundary : f.contents.Boundary v.1.start)
    (hwithin : v.1.start ≠ place + 1) (hw : w.1 = (Respelling.inPlace place fits).tree v.1)
    (henabled : isEnabledAt
      { f with contents := u ++ ' ' :: ((Respelling.inPlace place fits).word ++ ' ' :: r) } w =
        true) :
    isEnabledAt f v = true := by
  obtain ⟨before, after, hsplit, hstart⟩ := hboundary
  have hoffset : before.length ≤ f.contents.length := by
    rw [hsplit, List.length_append]
    exact Nat.le_add_right _ _
  have hmoved := placeByte_inPlace fits hplace hcontents hsplit (by omega)
  rw [isEnabledAt, locateChain, hw, Respelling.tree_start, hstart, Int.toNat_natCast, hmoved]
    at henabled
  rw [isEnabledAt, locateChain, hstart, placeByte_byteSize hsplit]
  exact isEnabled_of_replaced (replaces_of_fits fits place) hpython hcontents hoffset henabled

theorem outlasts_of_respelled (fits : (identityFor? own).isSome) {ks : List Int}
    (hks : ∀ k ∈ ks, 0 ≤ k ∧ k ≤ place) {v w : SyntaxTree × List SyntaxTree}
    (hvw : (Respelling.inPlace place fits).violation v = some w) (hw : outlasts ks w = true) :
    outlasts (ks ++ [(place : Int)]) v = true := by
  unfold Respelling.violation at hvw
  split at hvw
  next => cases hvw
  next =>
    cases Option.some.inj hvw
    obtain ⟨_, hmem, hnot⟩ := List.any_eq_true.mp hw
    obtain ⟨op, hop, rfl⟩ := List.mem_map.mp hmem
    obtain ⟨hop, hne⟩ := List.mem_filter.mp hop
    change decide (op.start ≠ (place : Int)) = true at hne
    refine List.any_eq_true.mpr ⟨op, hop, decide_eq_true fun hin => ?_⟩
    rcases List.mem_append.mp hin with hin | hin
    · have hbounds := hks _ hin
      rw [Respelling.tree_start, move_of_le fits (by omega), Int.toNat_of_nonneg hbounds.1] at hnot
      exact of_decide_eq_true hnot hin
    · exact of_decide_eq_true hne (List.mem_singleton.mp hin)

/-- Respelling an operator leaves no chain flagged that was not, and takes the operator from the
chain that it stands in. -/
theorem countP_flagged_le (fits : (identityFor? own).isSome)
    (hpython : f.dialect = .python) (hplace : place = Text.byteSize (u ++ [' ']))
    (hcontents : f.contents = u ++ ' ' :: (own ++ ' ' :: r)) {t t' : SyntaxTree}
    (lies : ChainsIn f.contents t) (operator : HasOperator t own place)
    (respelled : chains t' = (chains t).map (Respelling.inPlace place fits).tree)
    {ks : List Int} (hks : ∀ k ∈ ks, 0 ≤ k ∧ k ≤ place) :
    (flagged
        { f with contents := u ++ ' ' :: ((Respelling.inPlace place fits).word ++ ' ' :: r) }
        t').countP (outlasts ks) ≤ (flagged f t).countP (outlasts (ks ++ [(place : Int)])) := by
  rw [countP_flagged_eq, countP_flagged_eq, respelled, Respelling.violationsAmong_map_tree,
    List.countP_filterMap]
  apply List.countP_mono_left
  intro v hv hw
  have hchain := fst_mem_of_mem_violationsAmong hv
  cases hvw : (Respelling.inPlace place fits).violation v with
  | none =>
    rw [hvw] at hw
    cases hw
  | some w =>
    rw [hvw] at hw
    obtain ⟨houtlasts, henabled⟩ := Bool.and_eq_true_iff.mp hw
    have hfirst : w.1 = (Respelling.inPlace place fits).tree v.1 := by
      unfold Respelling.violation at hvw
      split at hvw
      next => cases hvw
      next => exact (congrArg Prod.fst (Option.some.inj hvw)).symm
    exact Bool.and_eq_true_iff.mpr ⟨outlasts_of_respelled fits hks hvw houtlasts,
      isEnabledAt_of_respelled fits hpython hplace hcontents (lies.start_boundary hchain)
        (lies.start_ne operator hchain) hfirst henabled⟩

end Step

namespace Slot

theorem read_append (part : Slot → Text) (slots : List Slot) (gap rest : Text) :
    read part slots (gap ++ rest) = read part slots gap ++ rest := by
  simp [read]

theorem read_concat (part : Slot → Text) (slots : List Slot) (s : Slot) (tail : Text) :
    read part (slots ++ [s]) tail = read part slots (s.gap ++ (part s ++ tail)) := by
  simp [read]

theorem read_of_append (part : Slot → Text) (early late : List Slot) (s : Slot) (tail : Text) :
    read part (early ++ s :: late) tail =
      read part early s.gap ++ (part s ++ read part late tail) := by
  simp [read]

/-- Where the operators start, in bytes. -/
def places (offset : Int) : List Slot → List Int
  | [] => []
  | s :: rest =>
    (offset + Text.byteSize s.gap) ::
      places (offset + Text.byteSize s.gap + Text.byteSize s.own) rest

theorem places_concat (offset : Int) (slots : List Slot) (s : Slot) :
    places offset (slots ++ [s]) =
      places offset slots ++ [offset + Text.byteSize (read (·.own) slots s.gap)] := by
  induction slots generalizing offset with
  | nil => simp [places, read]
  | cons first rest ih =>
    rw [List.cons_append, places, ih, places, read_cons, Text.byteSize_append,
      Text.byteSize_append, List.cons_append]
    congr 3
    omega

theorem mem_places {offset k : Int} {slots : List Slot} (gap : Text) (h : k ∈ places offset slots) :
    offset ≤ k ∧ k ≤ offset + Text.byteSize (read (·.own) slots gap) := by
  induction slots generalizing offset with
  | nil => cases h
  | cons s rest ih =>
    rw [read_cons, Text.byteSize_append, Text.byteSize_append]
    rcases List.mem_cons.mp h with rfl | h
    · omega
    · have := ih h
      omega

theorem stop_le_byteSize_read {slots early late : List Slot} {s : Slot} (fits : s.Fits)
    (gap : Text) (h : slots = early ++ s :: late) :
    Text.byteSize (read (·.own) early s.gap) + 2 ≤ Text.byteSize (read (·.own) slots gap) := by
  have hsize := byteSize_of_fits fits.isSome
  rw [h, read_of_append, Text.byteSize_append, Text.byteSize_append, hsize]
  omega

/-- What starts with a space before an operator does so without the operator. -/
theorem exists_space_of_append {part own behind rest : Text} (fits : (identityFor? own).isSome)
    (h : part ++ (own ++ behind) = ' ' :: rest) : ∃ more, part = ' ' :: more := by
  cases part with
  | nil =>
    obtain ⟨c, more, rfl, hc⟩ := exists_head_of_fits fits
    exact absurd (List.cons.inj h).1 hc
  | cons c more =>
    obtain rfl : c = ' ' := (List.cons.inj h).1
    exact ⟨more, rfl⟩

theorem Fits.word_inPlace {s : Slot} (fits : s.Fits) (place : Nat) :
    (Respelling.inPlace place fits.isSome).word = s.word := by
  change (identityFor? s.own).getD s.own = s.word
  rw [show identityFor? s.own = some s.word from fits]
  rfl

/-- A slot stands in a tree: its operator is one of those of the tree and has a space on both
sides. -/
structure Stands (t : SyntaxTree) (tail : Text) (early : List Slot) (s : Slot)
    (late : List Slot) : Prop where
  fits : s.Fits
  operator : HasOperator t s.own (Text.byteSize (read (·.own) early s.gap))
  spaces : ∃ u r, read (·.own) early s.gap = u ++ [' '] ∧ read (·.own) late tail = ' ' :: r

/-- A slot still stands in the tree when the last operator behind it is respelled. -/
theorem Stands.respelled {t t' : SyntaxTree} {early late : List Slot} {s last : Slot} {r : Text}
    {place : Nat} (fits : (identityFor? last.own).isSome)
    (hchains : chains t' = (chains t).map (Respelling.inPlace place fits).tree)
    (hplace : Text.byteSize (read (·.own) (early ++ s :: late) last.gap) = place)
    (h : Stands t (' ' :: r) early s (late ++ [last])) :
    Stands t' (last.gap ++ (last.word ++ ' ' :: r)) early s late := by
  obtain ⟨hs, operator, u, behind, hu, hbehind⟩ := h
  rw [read_concat, read_append] at hbehind
  obtain ⟨more, hmore⟩ := exists_space_of_append fits hbehind
  refine ⟨hs, operator.of_respelled fits hchains ?_, u, more ++ (last.word ++ ' ' :: r), hu, ?_⟩
  · have := @stop_le_byteSize_read (early ++ s :: late) early late s hs last.gap rfl
    omega
  · rw [read_append, hmore, List.cons_append]

end Slot

/-- Once operators are replaced no more violations are flagged than were that had another
operator. -/
theorem length_flagged_le [Parser] {WellFormed : Text → Prop} (grammar : ReadsChains WellFormed)
    (slots : List Slot) {tail : Text} {f : SourceFile} {t : SyntaxTree}
    (hpython : f.dialect = .python) (hcontents : f.contents = Slot.read (·.own) slots tail)
    (wellFormed : WellFormed f.contents) (parsed : Parser.parse .python f.contents = .ok t)
    (hslots : ∀ early s late, slots = early ++ s :: late → Slot.Stands t tail early s late) :
    ∃ t', WellFormed (Slot.read (·.word) slots tail) ∧
      Parser.parse .python (Slot.read (·.word) slots tail) = .ok t' ∧
      (flagged { f with contents := Slot.read (·.word) slots tail } t').length ≤
        (flagged f t).countP (outlasts (Slot.places 0 slots)) := by
  -- The last operator is replaced first: those before it keep their places.
  induction slots using List.reverseRecOn generalizing f t tail with
  | nil =>
    have hsame : Slot.read (·.word) [] tail = f.contents := hcontents.symm
    rw [hsame]
    refine ⟨t, wellFormed, parsed, ?_⟩
    rw [List.countP_eq_length.mpr]
    intro v hv
    obtain ⟨-, -, hne, -⟩ := mem_violations (List.mem_filter.mp hv).1
    obtain ⟨op, hop⟩ := List.exists_mem_of_ne_nil _ hne
    exact List.any_eq_true.mpr ⟨op, hop, by simp [Slot.places]⟩
  | append_singleton slots last ih =>
    obtain ⟨hfits, hoperator, u, r, hu, htail⟩ := hslots slots last [] rfl
    obtain rfl : tail = ' ' :: r := htail
    obtain ⟨place, hplace⟩ : ∃ place, Text.byteSize (Slot.read (·.own) slots last.gap) = place :=
      ⟨_, rfl⟩
    have fits := hfits.isSome
    have hword := hfits.word_inPlace place
    rw [hplace] at hoperator
    rw [hu] at hplace
    -- Either way the text ends in the operator and what stands behind it.
    have hread (word : Text) : Slot.read (·.own) slots (last.gap ++ (word ++ ' ' :: r)) =
        u ++ ' ' :: (word ++ ' ' :: r) := by
      rw [Slot.read_append, hu]
      simp
    rw [Slot.read_concat, hread] at hcontents
    have lies := grammar.chainsIn wellFormed parsed
    obtain ⟨t', hnext, hparsed, hchains⟩ := grammar.exists_respelled fits (hcontents ▸ wellFormed)
      (hcontents ▸ parsed) hplace.symm hoperator
    have hks : ∀ k ∈ Slot.places 0 slots, 0 ≤ k ∧ k ≤ place := by
      intro k hk
      have := Slot.mem_places last.gap hk
      rw [hu, hplace] at this
      omega
    have hstep := countP_flagged_le fits hpython hplace.symm hcontents lies hoperator hchains hks
    rw [hword] at hnext hparsed hstep
    have hstands : ∀ early s late, slots = early ++ s :: late →
        Slot.Stands t' (last.gap ++ (last.word ++ ' ' :: r)) early s late := by
      rintro early s late rfl
      have hstands := hslots early s (late ++ [last])
        (by rw [List.append_assoc, List.cons_append])
      exact hstands.respelled fits hchains (by rw [hu, hplace])
    obtain ⟨t'', hwell, hparsed', hrest⟩ := @ih (last.gap ++ (last.word ++ ' ' :: r))
      { f with contents := u ++ ' ' :: (last.word ++ ' ' :: r) } t' hpython (hread last.word).symm
      hnext hparsed hstands
    rw [Slot.read_concat]
    refine ⟨t'', hwell, hparsed', hrest.trans (hstep.trans (Nat.le_of_eq ?_))⟩
    rw [Slot.places_concat, Int.zero_add, hu, hplace]

end NoneComparison

end StyleRules
