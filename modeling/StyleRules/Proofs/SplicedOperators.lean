import StyleRules.Proofs.Acceptance
import StyleRules.Proofs.RespelledFiles
import Mathlib.Data.List.Pairwise

namespace StyleRules

namespace NoneComparison

/-- Splicing goes on behind the stretch that the first edit takes away. -/
theorem spliceFrom_cons_append {e : Edit} {edits : List Edit} {offset : Nat}
    {gap own after : Text} (hoffset : e.offset = offset + gap.length)
    (hlength : e.length = own.length) (h : ∀ a ∈ edits, e.stop ≤ a.offset) :
    Edit.spliceFrom (e :: edits) offset (gap ++ (own ++ after)) =
      gap ++ (e.replacement ++ Edit.spliceFrom edits e.stop after) := by
  have hlater : ∀ a ∈ e :: edits, offset + gap.length ≤ a.offset := by
    intro a ha
    rcases List.mem_cons.mp ha with rfl | ha
    · omega
    · have := h a ha
      have := e.offset_le_stop
      omega
  rw [Edit.spliceFrom_eq_take_append offset gap.length _ hlater (by simp), List.take_left,
    List.drop_left, ← hoffset, Edit.spliceFrom_cons_at _ h (by simp [hlength]), hlength,
    List.drop_left]

/-- An edit rewrites the text of a chain where the chain stands. -/
def RewritesAt (text : Text) (violation : SyntaxTree × List SyntaxTree) (e : Edit) : Prop :=
  ∃ before slots tail after,
    text = before ++ Slot.read (·.own) slots tail ++ after ∧
      Cut text violation.1.stop violation.1.start violation.2 slots tail ∧
      e = ⟨before.length, (Slot.read (·.own) slots tail).length,
        Slot.read (·.word) slots tail⟩ ∧
      violation.1.start = Text.byteSize before

theorem offset_of_ofBounds {offset : Nat} {length : Int} {replacement : Text} {e : Edit}
    (h : Edit.ofBounds offset length replacement = .ok e) : e.offset = offset := by
  by_cases hlength : length < 0
  · unfold Edit.ofBounds at h
    dsimp only at h
    rw [if_neg (by omega), if_pos hlength] at h
    cases h
  · obtain ⟨n, rfl⟩ := Int.eq_ofNat_of_zero_le (Int.not_lt.mp hlength)
    rw [show Edit.ofBounds offset n replacement = .ok ⟨offset, n, replacement⟩ from
      ofBounds_natCast offset n replacement] at h
    cases Except.ok.inj h
    rfl

/-- The edit of a chain starts at the character at which the chain starts. -/
theorem offset_of_editOf {source : Bytes} {index : LineIndex} {chain : SyntaxTree}
    {ops : List SyntaxTree} {e : Edit} (h : editOf source index chain ops = .ok (some e)) :
    index.characterOffset? chain.start = some e.offset := by
  unfold editOf at h
  split at h
  next start stop hstart hstop =>
    split at h
    next => cases h
    next replacement hreplacement =>
      split at h
      next e' he' =>
        cases Option.some.inj (Except.ok.inj h)
        rw [hstart, offset_of_ofBounds he']
      next => cases h
  next => cases h

/-- The edit of a chain whose operators lie in the text rewrites it where it stands. -/
theorem editOf_rewritesAt {text : Text} {chain : SyntaxTree} (holds : HoldsOperators text chain)
    (hne : offending none chain.children ≠ []) :
    ∃ e, editOf (Text.encode text) (.ofText text) chain (offending none chain.children) =
        .ok (some e) ∧
      RewritesAt text (chain, offending none chain.children) e := by
  obtain ⟨e, he, before, slots, tail, after, htext, hcut, rfl⟩ := editOf_rewrites holds hne
  refine ⟨_, he, before, slots, tail, after, htext, hcut, rfl, ?_⟩
  obtain ⟨before', after', htext', hstart, -⟩ := hcut.spans
  have hoffset := offset_of_editOf he
  have hlength : before'.length = before.length := by
    rw [List.append_assoc] at htext'
    rw [hstart, htext', Text.characterOffset?_byteSize] at hoffset
    exact Option.some.inj hoffset
  have hsame : before' = before := by
    rw [List.append_assoc] at htext htext'
    exact (List.append_inj (htext'.symm.trans htext) hlength).1
  rw [hstart, hsame]

/-- Where every chain of a tree has its operators in the text, each chain that violates the rule gets
an edit that rewrites it where it stands, in their order. -/
theorem edits_of_holdsOperators {f : SourceFile} {t : SyntaxTree}
    (holds : ∀ n ∈ t.preorder, n.kind = Comparison.chainKind → HoldsOperators f.contents n) :
    ∃ es, edits { file := f, index := .ofText f.contents, tree := t } = .ok es ∧
      List.Forall₂ (RewritesAt f.contents) (violations t) es := by
  refine edits_of_editOf ?_
  rintro ⟨chain, ops⟩ h
  obtain ⟨hmem, hkind, hne, rfl⟩ := mem_violations h
  exact editOf_rewritesAt (holds chain hmem hkind) hne

namespace Cut

variable {text tail later : Text} {start middle stop : Int} {ops more : List SyntaxTree}
  {slots rest : List Slot}

/-- Two cuts of which one goes on where the other stops are one cut. -/
theorem append (h : Cut text middle start ops slots tail)
    (h' : Cut text stop middle more rest later) :
    ∃ all end_, Cut text stop start (ops ++ more) all end_ ∧
      Slot.read (·.word) all end_ =
        Slot.read (·.word) slots tail ++ Slot.read (·.word) rest later := by
  induction h with
  | tail behind =>
    cases h' with
    | tail before => exact ⟨_, _, .tail (behind.append before), by simp [Slot.read]⟩
    | operator before spelled identity h' =>
      exact ⟨_, _, .operator (behind.append before) spelled identity h', by simp [Slot.read]⟩
  | operator before spelled identity _ ih =>
    obtain ⟨all, end_, hcut, hread⟩ := ih
    refine ⟨_, _, .operator before spelled identity hcut, ?_⟩
    rw [Slot.read_cons, Slot.read_cons, hread]
    simp only [List.append_assoc]

theorem places_eq (h : Cut text stop start ops slots tail) :
    Slot.places start slots = ops.map (·.start) := by
  induction h with
  | tail => rfl
  | operator before spelled _ _ ih =>
    have hbefore := before.stop_eq
    have hspelled := spelled.stop_eq
    rw [Slot.places, List.map_cons, ← hbefore, ← hspelled, ih]

/-- A slot is one of the operators. -/
theorem exists_operator (h : Cut text stop start ops slots tail) {early late : List Slot}
    {s : Slot} (hslots : slots = early ++ s :: late) :
    ∃ op ∈ ops, op.start = start + Text.byteSize (Slot.read (·.own) early s.gap) ∧
      text.Spans op.start op.stop s.own := by
  induction h generalizing early with
  | tail => cases early <;> cases hslots
  | @operator start op ops gap own word tail slots before spelled identity rest ih =>
    cases early with
    | nil =>
      cases hslots
      exact ⟨op, List.mem_cons_self, by simpa [Slot.read] using before.stop_eq, spelled⟩
    | cons first early =>
      cases hslots
      obtain ⟨other, hother, hstart, hown⟩ := ih rfl
      refine ⟨other, List.mem_cons_of_mem _ hother, ?_, hown⟩
      have hbefore := before.stop_eq
      have hspelled := spelled.stop_eq
      rw [Slot.read_cons, Text.byteSize_append, Text.byteSize_append]
      dsimp only
      omega

end Cut

/-- Edits that do not overlap, spliced into a text, replace the operators of their chains. -/
theorem exists_cut_of_rewritesAt {text done rest : Text}
    {vs : List (SyntaxTree × List SyntaxTree)} {made : List Edit} (htext : text = done ++ rest)
    (hmade : List.Forall₂ (RewritesAt text) vs made)
    (apart : made.Pairwise fun a b => a.stop ≤ b.offset)
    (hdone : ∀ e ∈ made, done.length ≤ e.offset) :
    ∃ slots tail,
      Cut text (Text.byteSize text) (Text.byteSize done) (vs.flatMap (·.2)) slots tail ∧
        Slot.read (·.word) slots tail = Edit.spliceFrom made done.length rest := by
  induction hmade generalizing done rest with
  | nil =>
    refine ⟨[], rest, .tail ⟨done, [], by simpa using htext, rfl, by rw [htext]⟩, ?_⟩
    exact (Edit.spliceFrom_nil _ _).symm
  | @cons v e vs made hv _ ih =>
    obtain ⟨before, slots, tail, after, hsplit, hcut, rfl, hstart⟩ := hv
    obtain ⟨hfirst, hlater⟩ := List.pairwise_cons.mp apart
    have hle := hdone _ List.mem_cons_self
    dsimp only at hle hfirst
    obtain ⟨gap, rfl⟩ : done <+: before := by
      rw [hsplit, List.append_assoc] at htext
      exact List.prefix_of_prefix_length_le ⟨rest, htext.symm⟩ (List.prefix_append _ _) hle
    obtain rfl : rest = gap ++ (Slot.read (·.own) slots tail ++ after) := by
      rw [hsplit] at htext
      simpa using htext.symm
    obtain ⟨later, final, hrest, hread⟩ := ih hsplit hlater (fun e he => by
      rw [List.length_append]
      exact hfirst e he)
    have hgap : text.Spans (Text.byteSize done) (Text.byteSize (done ++ gap)) gap :=
      ⟨done, Slot.read (·.own) slots tail ++ after, by rw [hsplit, List.append_assoc], rfl, rfl⟩
    have hstop := hcut.spans.stop_eq
    rw [hstart] at hcut hstop
    rw [← Int.natCast_add, ← Text.byteSize_append] at hstop
    rw [hstop] at hcut
    obtain ⟨most, back, hmost, hreadmost⟩ := hcut.append hrest
    obtain ⟨all, end_, hall, hreadall⟩ := (Cut.tail hgap).append hmost
    refine ⟨all, end_, hall, ?_⟩
    rw [hreadall, hreadmost, hread,
      spliceFrom_cons_append (List.length_append) rfl hfirst, Edit.stop, ← List.length_append]
    simp [Slot.read]

section Accepted

variable {α β : Type} {R : α → β → Prop} {xs : List α} {ys made : List β}

theorem exists_sublist_of_forall₂ (h : List.Forall₂ R xs ys) (hmade : made.Sublist ys) :
    ∃ chosen, chosen.Sublist xs ∧ List.Forall₂ R chosen made := by
  induction hmade generalizing xs with
  | slnil =>
    cases h
    exact ⟨[], List.Sublist.refl _, .nil⟩
  | cons y _ ih =>
    obtain _ | ⟨_, h⟩ := h
    obtain ⟨chosen, hsub, hchosen⟩ := ih h
    exact ⟨chosen, hsub.cons _, hchosen⟩
  | cons_cons y _ ih =>
    obtain _ | ⟨hxy, h⟩ := h
    obtain ⟨chosen, hsub, hchosen⟩ := ih h
    exact ⟨_ :: chosen, hsub.cons_cons _, .cons hxy hchosen⟩

theorem exists_subperm_of_forall₂ (h : List.Forall₂ R xs ys) (hmade : made.Subperm ys) :
    ∃ chosen, chosen.Subperm xs ∧ List.Forall₂ R chosen made := by
  obtain ⟨ordered, hperm, hsub⟩ := hmade
  obtain ⟨chosen, hchosen, hforall⟩ := exists_sublist_of_forall₂ h hsub
  have hcomp : Relation.Comp (List.Forall₂ R) List.Perm chosen made := ⟨ordered, hforall, hperm⟩
  rw [List.forall₂_comp_perm_eq_perm_comp_forall₂] at hcomp
  obtain ⟨arranged, hsame, harranged⟩ := hcomp
  exact ⟨arranged, hsame.symm.subperm.trans hchosen.subperm, harranged⟩

end Accepted

theorem locateChain_of_rewritesAt {f : SourceFile} {v : SyntaxTree × List SyntaxTree} {e : Edit}
    (h : RewritesAt f.contents v e) : locateChain f v.1 = f.locate e.offset := by
  obtain ⟨before, slots, tail, after, htext, -, rfl, hstart⟩ := h
  rw [locateChain, hstart]
  rw [List.append_assoc] at htext
  exact placeByte_byteSize htext

theorem map_locate_of_rewritesAt {f : SourceFile} {vs : List (SyntaxTree × List SyntaxTree)}
    {made : List Edit} (h : List.Forall₂ (RewritesAt f.contents) vs made) :
    made.map (fun e => f.locate e.offset) = vs.map (fun v => locateChain f v.1) := by
  induction h with
  | nil => rfl
  | cons hv _ ih => rw [List.map_cons, List.map_cons, ih, locateChain_of_rewritesAt hv]

variable {r : Rule}

/-- The edits accepted are those of chains that are flagged. -/
theorem exists_flagged (plain : r.CorrectsPlainly)
    (hidentifier : r.identifier = description.identifier) {f : SourceFile} {t : SyntaxTree}
    {proposed : List Edit} (h : List.Forall₂ (RewritesAt f.contents) (violations t) proposed) :
    ∃ chosen, chosen.Subperm (flagged f t) ∧
      List.Forall₂ (RewritesAt f.contents) chosen (r.accepted f proposed) := by
  obtain ⟨chosen, hsub, hchosen⟩ := exists_subperm_of_forall₂ h (Rule.accepted_subperm r f proposed)
  have henabled : ∀ v ∈ chosen, isEnabledAt f v = true := by
    intro v hv
    obtain ⟨e, he, hve⟩ := exists_of_forall₂ hchosen.flip hv
    rw [isEnabledAt, locateChain_of_rewritesAt hve, ← hidentifier]
    exact Rule.accepted_enabled plain he
  refine ⟨chosen, ?_, hchosen⟩
  rw [← List.filter_eq_self.mpr henabled]
  exact hsub.filter _

/-- An operator stands at a byte offset of a text with a space on both sides. -/
def Spaced (text own : Text) (place : Int) : Prop :=
  ∃ u r, text = u ++ ' ' :: (own ++ ' ' :: r) ∧ place = Text.byteSize (u ++ [' '])

theorem spaced_iff {text own : Text} {place : Int} :
    Spaced text own place ↔ ∃ n < text.length,
      text = text.take n ++ ' ' :: (own ++ ' ' :: text.drop (n + own.length + 2)) ∧
        place = Text.byteSize (text.take n ++ [' ']) := by
  constructor
  · rintro ⟨u, r, rfl, hplace⟩
    have hsplit : u ++ ' ' :: (own ++ ' ' :: r) = (u ++ ' ' :: own ++ [' ']) ++ r := by simp
    have hdrop : (u ++ ' ' :: (own ++ ' ' :: r)).drop (u.length + own.length + 2) = r := by
      rw [hsplit]
      exact List.drop_left' (by simp [Nat.add_assoc])
    refine ⟨u.length, by simp, ?_, ?_⟩
    · rw [List.take_left, hdrop]
    · rw [List.take_left]
      exact hplace
  · rintro ⟨n, -, htext, hplace⟩
    exact ⟨_, _, htext, hplace⟩

instance (text own : Text) (place : Int) : Decidable (Spaced text own place) :=
  decidable_of_iff _ spaced_iff.symm

/-- Every equality operator of a tree has a space on both sides. -/
def SpacesOperators (text : Text) (t : SyntaxTree) : Prop :=
  ∀ n ∈ t.preorder, n.kind = Comparison.chainKind →
    ∀ op ∈ operators n, Spaced text op.kind op.start

instance (text : Text) (t : SyntaxTree) : Decidable (SpacesOperators text t) :=
  inferInstanceAs (Decidable (∀ n ∈ t.preorder, n.kind = Comparison.chainKind →
    ∀ op ∈ operators n, Spaced text op.kind op.start))

/-- The operators of a cut stand as they have to where they are operators with spaces. -/
theorem stands_of_cut {text tail : Text} {t : SyntaxTree} (lies : ChainsIn text t)
    (spaced : SpacesOperators text t) {ops : List SyntaxTree} {slots : List Slot}
    (hcut : Cut text (Text.byteSize text) 0 ops slots tail)
    (hops : ∀ op ∈ ops, ∃ n ∈ t.preorder, n.kind = Comparison.chainKind ∧ op ∈ operators n) :
    text = Slot.read (·.own) slots tail ∧ ∀ early s late, slots = early ++ s :: late →
      Slot.Stands t tail early s late := by
  have hwhole : text.Spans 0 (Text.byteSize text) text := ⟨[], [], by simp, rfl, by simp⟩
  have htext := hwhole.unique hcut.spans
  have hspelled : ∀ op ∈ ops, text.Spans op.start op.stop op.kind := by
    intro op hop
    obtain ⟨n, hn, hkind, hop⟩ := hops op hop
    obtain ⟨hchild, hidentity⟩ := List.mem_filter.mp hop
    exact lies.spelled n hn hkind op hchild hidentity
  refine ⟨htext, fun early s late hslots => ?_⟩
  have hfits := hcut.fits hspelled s (by simp [hslots])
  obtain ⟨op, hop, hstart, hown⟩ := hcut.exists_operator hslots
  have hkind : s.own = op.kind := hown.unique (hspelled op hop)
  rw [Int.zero_add] at hstart
  obtain ⟨n, hn, hchain, hop⟩ := hops op hop
  obtain ⟨u, r, hu, hplace⟩ := spaced n hn hchain op hop
  have hsplit : (u ++ [' ']) ++ (s.own ++ ' ' :: r) =
      Slot.read (·.own) early s.gap ++ (s.own ++ Slot.read (·.own) late tail) := by
    rw [← Slot.read_of_append, ← hslots, ← htext, hu, hkind]
    simp
  have hbefore := Text.eq_of_byteSize_eq hsplit (by omega)
  rw [hbefore] at hsplit
  have hbehind := List.append_cancel_left (List.append_cancel_left hsplit)
  exact ⟨hfits, hkind ▸ hasOperator_of_mem hn hchain hop hstart, u, r, hbefore.symm, hbehind.symm⟩

/-- An offending operator is one of those of its chain. -/
theorem exists_chain_of_mem_violations {t : SyntaxTree} {v : SyntaxTree × List SyntaxTree}
    (hv : v ∈ violations t) {op : SyntaxTree} (hop : op ∈ v.2) :
    ∃ n ∈ t.preorder, n.kind = Comparison.chainKind ∧ op ∈ operators n := by
  obtain ⟨chain, ops⟩ := v
  obtain ⟨hmem, hkind, -, rfl⟩ := mem_violations hv
  exact ⟨chain, hmem, hkind, (offending_sublist_operators chain).subset hop⟩

/-- The start of one chain is not before the end of the other. -/
def Apart (v w : SyntaxTree × List SyntaxTree) : Prop :=
  v.1.stop ≤ w.1.start ∨ w.1.stop ≤ v.1.start

instance : Std.Symm Apart := ⟨fun _ _ => Or.symm⟩

instance : DecidableRel Apart := fun _ _ => inferInstanceAs (Decidable (_ ∨ _))

theorem stop_le_of_rewritesAt {text : Text} {v w : SyntaxTree × List SyntaxTree} {a b : Edit}
    (ha : RewritesAt text v a) (hb : RewritesAt text w b) (h : v.1.stop ≤ w.1.start) :
    a.stop ≤ b.offset := by
  obtain ⟨before, slots, tail, after, htext, hcut, rfl, hstart⟩ := ha
  obtain ⟨before', slots', tail', after', htext', -, rfl, hstart'⟩ := hb
  have hstop := hcut.spans.stop_eq
  rw [htext', List.append_assoc before'] at htext
  obtain ⟨more, hmore, -⟩ := exists_of_byteSize_le htext.symm (by
    rw [Text.byteSize_append]
    omega)
  have hlength := congrArg List.length hmore
  rw [List.length_append, List.length_append] at hlength
  dsimp only [Edit.stop]
  omega

/-- The edits of chains that stand apart do not overlap. -/
theorem not_overlaps_of_apart {text : Text} {v w : SyntaxTree × List SyntaxTree} {a b : Edit}
    (ha : RewritesAt text v a) (hb : RewritesAt text w b) (h : Apart v w) : ¬a.Overlaps b := by
  rintro ⟨hab, hba⟩
  rcases h with h | h
  · have := stop_le_of_rewritesAt ha hb h
    omega
  · have := stop_le_of_rewritesAt hb ha h
    omega

/-- The edit of a chain takes away at least its operators. -/
theorem overlaps_self_of_rewritesAt {text : Text} {t : SyntaxTree} (lies : ChainsIn text t)
    {v : SyntaxTree × List SyntaxTree} {e : Edit} (hv : v ∈ violations t)
    (h : RewritesAt text v e) : e.Overlaps e := by
  have hspelled : ∀ op ∈ v.2, text.Spans op.start op.stop op.kind := by
    intro op hop
    obtain ⟨n, hn, hkind, hop⟩ := exists_chain_of_mem_violations hv hop
    obtain ⟨hchild, hidentity⟩ := List.mem_filter.mp hop
    exact lies.spelled n hn hkind op hchild hidentity
  obtain ⟨-, -, hne, -⟩ := mem_violations hv
  obtain ⟨chain, ops⟩ := v
  obtain ⟨before, slots, tail, after, -, hcut, rfl, -⟩ := h
  have hfits := hcut.fits hspelled
  cases slots with
  | nil =>
    cases hcut
    exact absurd rfl hne
  | cons s slots =>
    have hlength := length_of_fits (hfits s List.mem_cons_self).isSome
    rw [Slot.read_cons]
    constructor
    all_goals
      dsimp only [Edit.stop]
      rw [List.length_append, List.length_append]
      omega

/-- Where a chain is flagged, an edit is accepted: its own or one that its own overlaps. -/
theorem exists_accepted (plain : r.CorrectsPlainly)
    (hidentifier : r.identifier = description.identifier) {f : SourceFile} {t : SyntaxTree}
    (lies : ChainsIn f.contents t) {proposed : List Edit}
    (h : List.Forall₂ (RewritesAt f.contents) (violations t) proposed)
    {v : SyntaxTree × List SyntaxTree} (hv : v ∈ flagged f t) :
    ∃ e a, RewritesAt f.contents v e ∧ a ∈ r.accepted f proposed ∧ e.Overlaps a := by
  obtain ⟨hviolation, henabled⟩ := List.mem_filter.mp hv
  obtain ⟨e, he, hve⟩ := exists_of_forall₂ h.flip hviolation
  rw [isEnabledAt, locateChain_of_rewritesAt hve, ← hidentifier] at henabled
  rcases Rule.accepted_maximal plain he henabled with hmade | ⟨a, ha, hover⟩
  · exact ⟨e, e, hve, hmade, overlaps_self_of_rewritesAt lies hviolation hve⟩
  · exact ⟨e, a, hve, ha, hover⟩

/-- Splicing the edits accepted into a text whose operators have spaces leaves no more chains
flagged than those the edits of which were not accepted. -/
theorem flagged_splice [Parser] {WellFormed : Text → Prop} (grammar : ReadsChains WellFormed)
    (plain : r.CorrectsPlainly) (hidentifier : r.identifier = description.identifier)
    {f : SourceFile} {t : SyntaxTree} (python : f.dialect = .python)
    (wellFormed : WellFormed f.contents) (parsed : Parser.parse .python f.contents = .ok t)
    (lies : ChainsIn f.contents t) (spaced : SpacesOperators f.contents t)
    {proposed : List Edit} (h : List.Forall₂ (RewritesAt f.contents) (violations t) proposed) :
    let after : SourceFile :=
      { f with contents := Edit.splice f.contents (r.accepted f proposed) }
    ∃ t', WellFormed after.contents ∧ Parser.parse .python after.contents = .ok t' ∧
      (flagged after t').length + (r.accepted f proposed).length ≤ (flagged f t).length ∧
      ((flagged f t).Pairwise Apart → flagged after t' = []) := by
  intro after
  obtain ⟨chosen, hsub, hchosen⟩ := exists_flagged plain hidentifier h
  have hviolation : ∀ v ∈ flagged f t, v ∈ violations t := fun v hv => (List.mem_filter.mp hv).1
  obtain ⟨slots, tail, hcut, hread⟩ := exists_cut_of_rewritesAt (List.nil_append _).symm hchosen
    (Rule.accepted_apart r f proposed) (fun _ _ => Nat.zero_le _)
  obtain ⟨hcontents, hstands⟩ := stands_of_cut lies spaced hcut (by
    intro op hop
    obtain ⟨v, hv, hop⟩ := List.mem_flatMap.mp hop
    exact exists_chain_of_mem_violations (hviolation v (hsub.subset hv)) hop)
  obtain ⟨t', hwell, hparsed, hleft⟩ :=
    length_flagged_le grammar slots python hcontents wellFormed parsed hstands
  have hplaces : Slot.places 0 slots = (chosen.flatMap (·.2)).map (·.start) := hcut.places_eq
  rw [hplaces] at hleft
  rw [hread] at hwell hparsed hleft
  refine ⟨t', hwell, hparsed, ?_⟩
  -- What is chosen has all its operators replaced.
  have hreplaced : ∀ v ∈ chosen,
      ¬outlasts ((chosen.flatMap (·.2)).map (·.start)) v = true := by
    intro v hv hout
    obtain ⟨op, hop, hnot⟩ := List.any_eq_true.mp hout
    exact of_decide_eq_true hnot
      (List.mem_map_of_mem (List.mem_flatMap.mpr ⟨v, hv, hop⟩))
  constructor
  · have hcount := hsub.countP_le
      fun v => decide ¬outlasts ((chosen.flatMap (·.2)).map (·.start)) v = true
    rw [List.countP_eq_length.mpr fun v hv => decide_eq_true (hreplaced v hv),
      hchosen.length_eq] at hcount
    have hsum := (flagged f t).length_eq_countP_add_countP
      (outlasts ((chosen.flatMap (·.2)).map (·.start)))
    exact (Nat.add_le_add hleft hcount).trans hsum.ge
  · intro happart
    have hall : ∀ v ∈ flagged f t, v ∈ chosen := by
      intro v hv
      obtain ⟨e, a, hve, ha, hover⟩ := exists_accepted plain hidentifier lies h hv
      obtain ⟨w, hw, hwa⟩ := exists_of_forall₂ hchosen ha
      by_contra hnot
      have hne : v ≠ w := by
        rintro rfl
        exact hnot hw
      exact not_overlaps_of_apart hve hwa
        (happart.forall hv (hsub.subset hw) hne) hover
    refine List.eq_nil_of_length_eq_zero (Nat.le_zero.mp (hleft.trans (Nat.le_of_eq ?_)))
    exact List.countP_eq_zero.mpr fun v hv => hreplaced v (hall v hv)

end NoneComparison

end StyleRules
