import StyleRules.Proofs.ChainSpans
import StyleRules.Text.WordChar
import Mathlib.Data.List.Forall2

namespace StyleRules

namespace NoneComparison

section Bytes

variable (before after : Text)

theorem position_byteSize :
    position (Text.encode (before ++ after)).length (Text.byteSize before) =
      Text.byteSize before := by
  unfold position
  rw [if_neg (by omega), Text.length_encode, Text.byteSize_append]
  omega

theorem encode_append : Text.encode (before ++ after) = Text.encode before ++ Text.encode after :=
  List.flatMap_append

theorem upTo_encode :
    upTo (Text.encode (before ++ after)) (Text.byteSize before) = Text.encode before := by
  rw [upTo, position_byteSize, encode_append, ← Text.length_encode, List.take_left]

theorem startingAt_encode :
    startingAt (Text.encode (before ++ after)) (Text.byteSize before) = Text.encode after := by
  rw [startingAt, position_byteSize, encode_append, ← Text.length_encode, List.drop_left]

end Bytes

/-- An offending operator as the text of its chain has it: what stands before it, since the
offending operator before; its own text; and the operator that should be there. -/
structure Slot where
  gap : Text
  own : Text
  word : Text

namespace Slot

/-- The text of a chain with a part of each slot in the place of the operator. -/
def read (part : Slot → Text) (slots : List Slot) (tail : Text) : Text :=
  slots.flatMap (fun s => s.gap ++ part s) ++ tail

theorem read_cons (part : Slot → Text) (s : Slot) (slots : List Slot) (tail : Text) :
    read part (s :: slots) tail = s.gap ++ part s ++ read part slots tail := by
  simp [read]

end Slot

/-- The text from a byte offset on, up to another one, is cut at operators. -/
inductive Cut (text : Text) (stop : Int) : Int → List SyntaxTree → List Slot → Text → Prop where
  | tail {start : Int} {tail : Text} (rest : text.Spans start stop tail) :
    Cut text stop start [] [] tail
  | operator {start : Int} {op : SyntaxTree} {ops : List SyntaxTree} {gap own word tail : Text}
    {slots : List Slot} (before : text.Spans start op.start gap)
    (spelled : text.Spans op.start op.stop own) (identity : identityFor? op.kind = some word)
    (rest : Cut text stop op.stop ops slots tail) :
    Cut text stop start (op :: ops) (⟨gap, own, word⟩ :: slots) tail

namespace Cut

variable {text tail : Text} {start stop : Int} {ops : List SyntaxTree} {slots : List Slot}

/-- Operators that stand one after the other cut the text. -/
theorem exists_of_ascending (hstart : text.Boundary start) (hstop : text.Boundary stop)
    (hle : start ≤ stop)
    (boundaries : ∀ op ∈ ops, text.Boundary op.start ∧ text.Boundary op.stop)
    (inside : ∀ op ∈ ops, start ≤ op.start ∧ op.start ≤ op.stop ∧ op.stop ≤ stop)
    (ascending : ops.Pairwise (·.stop ≤ ·.start))
    (identity : ∀ op ∈ ops, (identityFor? op.kind).isSome) :
    ∃ slots tail, Cut text stop start ops slots tail := by
  induction ops generalizing start with
  | nil =>
    obtain ⟨tail, htail⟩ := hstart.spans hstop hle
    exact ⟨[], tail, .tail htail⟩
  | cons op ops ih =>
    obtain ⟨⟨hopstart, hopstop⟩, boundaries⟩ := List.forall_mem_cons.mp boundaries
    obtain ⟨⟨hbefore, hop, hbehind⟩, inside⟩ := List.forall_mem_cons.mp inside
    obtain ⟨hnext, ascending⟩ := List.pairwise_cons.mp ascending
    obtain ⟨hidentity, identity⟩ := List.forall_mem_cons.mp identity
    obtain ⟨gap, hgap⟩ := hstart.spans hopstart hbefore
    obtain ⟨own, hown⟩ := hopstart.spans hopstop hop
    obtain ⟨word, hword⟩ := Option.isSome_iff_exists.mp hidentity
    have hrest := ih hopstop hbehind boundaries
      (fun x hx => ⟨hnext x hx, (inside x hx).2⟩) ascending identity
    obtain ⟨slots, tail, hcut⟩ := hrest
    exact ⟨_, tail, .operator hgap hown hword hcut⟩

theorem spans (h : Cut text stop start ops slots tail) :
    text.Spans start stop (Slot.read (·.own) slots tail) := by
  induction h with
  | tail rest => exact rest
  | operator before spelled _ _ ih =>
    rw [Slot.read_cons]
    exact (before.append spelled).append ih

/-- Replacing the operators from the last one on, in the bytes of the chain so far and of the cut
text, replaces them in the text. -/
theorem replace {chainStart : Int} {before : Text} (h : Cut text stop start ops slots tail)
    (hbefore : text.Spans chainStart start before) :
    ops.foldr (fun op bytes => replaceOperator chainStart bytes op)
        (Text.encode (before ++ Slot.read (·.own) slots tail)) =
      Text.encode (before ++ Slot.read (·.word) slots tail) := by
  induction h generalizing before with
  | tail rest => rfl
  | @operator start op ops gap own word tail slots hgap hown hword rest ih =>
    have hupto := hbefore.append hgap
    have hbehind := hupto.append hown
    have hstart : op.start - chainStart = Text.byteSize (before ++ gap) := by
      have := hupto.stop_eq
      omega
    have hstop : op.stop - chainStart = Text.byteSize (before ++ gap ++ own) := by
      have := hbehind.stop_eq
      omega
    have hread (part : Slot → Text) : before ++ Slot.read part (⟨gap, own, word⟩ :: slots) tail =
        before ++ gap ++ part ⟨gap, own, word⟩ ++ Slot.read part slots tail := by
      rw [Slot.read_cons]
      simp only [List.append_assoc]
    rw [hread, hread, List.foldr_cons, ih hbehind, replaceOperator, hstart, hstop, hword,
      startingAt_encode, List.append_assoc (before ++ gap), upTo_encode, Option.getD_some,
      ← encode_append, ← encode_append]

end Cut

/-- An edit replaces the text of a chain by that text with the offending operators replaced. -/
def Rewrites (text : Text) (violation : SyntaxTree × List SyntaxTree) (e : Edit) : Prop :=
  ∃ before slots tail after,
    text = before ++ Slot.read (·.own) slots tail ++ after ∧
      Cut text violation.1.stop violation.1.start violation.2 slots tail ∧
      e = ⟨before.length, (Slot.read (·.own) slots tail).length,
        Slot.read (·.word) slots tail⟩

theorem offending_sublist (previous : Option SyntaxTree) (children : List SyntaxTree) :
    (offending previous children).Sublist children := by
  fun_induction offending previous children with
  | case1 => exact List.nil_sublist _
  | case2 previous child rest isNone offends h ih => exact ih.cons_cons child
  | case3 previous child rest isNone offends h ih => exact ih.cons child

theorem identityFor?_of_mem_offending {previous : Option SyntaxTree} {children : List SyntaxTree}
    {op : SyntaxTree} (h : op ∈ offending previous children) :
    (identityFor? op.kind).isSome := by
  fun_induction offending previous children with
  | case1 => cases h
  | case2 previous child rest isNone offends hoffends ih =>
    rcases List.mem_cons.mp h with rfl | h
    · exact (Bool.and_eq_true_iff.mp hoffends).1
    · exact ih h
  | case3 previous child rest isNone offends hoffends ih => exact ih h

theorem mem_violations {t chain : SyntaxTree} {ops : List SyntaxTree}
    (h : (chain, ops) ∈ violations t) :
    chain ∈ t.preorder ∧ chain.kind = Comparison.chainKind ∧ ops ≠ [] ∧
      ops = offending none chain.children := by
  obtain ⟨n, hn, h⟩ := List.mem_filterMap.mp h
  obtain ⟨hmem, hkind⟩ := SyntaxTree.mem_nodes_iff.mp hn
  split at h
  next => cases h
  next hne =>
    cases Option.some.inj h
    exact ⟨hmem, hkind, hne, rfl⟩

theorem ofBounds_natCast (offset length : Nat) (replacement : Text) :
    Edit.ofBounds offset length replacement = .ok ⟨offset, length, replacement⟩ := by
  unfold Edit.ofBounds
  dsimp only
  rw [if_neg (by omega), if_neg (by omega)]
  rfl

/-- The equality operators among the children of a chain. -/
def operators (chain : SyntaxTree) : List SyntaxTree :=
  chain.children.filter fun c => (identityFor? c.kind).isSome

/-- The equality operators of a chain stand in it one after the other, and it starts and stops
between characters as they do. -/
structure HoldsOperators (text : Text) (chain : SyntaxTree) : Prop where
  start_boundary : text.Boundary chain.start
  stop_boundary : text.Boundary chain.stop
  boundaries : ∀ op ∈ operators chain, text.Boundary op.start ∧ text.Boundary op.stop
  inside : ∀ op ∈ operators chain,
    chain.start ≤ op.start ∧ op.start ≤ op.stop ∧ op.stop ≤ chain.stop
  ascending : (operators chain).Pairwise (·.stop ≤ ·.start)

theorem LaidOut.holdsOperators {text : Text} {chain : SyntaxTree} (laid : LaidOut text chain) :
    HoldsOperators text chain where
  start_boundary := laid.start_boundary
  stop_boundary := laid.stop_boundary
  boundaries := by
    intro op hop
    obtain ⟨hmem, hidentity⟩ := List.mem_filter.mp hop
    exact laid.operator_boundaries op hmem hidentity
  inside := fun op hop => laid.inside op (List.mem_filter.mp hop).1
  ascending := laid.ascending.sublist List.filter_sublist

theorem offending_sublist_operators (chain : SyntaxTree) :
    (offending none chain.children).Sublist (operators chain) := by
  have hall : (offending none chain.children).filter (fun c => (identityFor? c.kind).isSome) =
      offending none chain.children :=
    List.filter_eq_self.mpr fun op hop => identityFor?_of_mem_offending hop
  rw [← hall]
  exact (offending_sublist none chain.children).filter _

/-- The edit of a chain whose operators lie in the text rewrites it. -/
theorem editOf_rewrites {text : Text} {chain : SyntaxTree} (holds : HoldsOperators text chain)
    (hne : offending none chain.children ≠ []) :
    ∃ e, editOf (Text.encode text) (.ofText text) chain (offending none chain.children) =
        .ok (some e) ∧
      Rewrites text (chain, offending none chain.children) e := by
  have hsublist := offending_sublist_operators chain
  obtain ⟨op, hop⟩ := List.exists_mem_of_ne_nil _ hne
  have hle : chain.start ≤ chain.stop := by
    have := holds.inside op (hsublist.subset hop)
    omega
  obtain ⟨slots, tail, hcut⟩ := Cut.exists_of_ascending holds.start_boundary holds.stop_boundary
    hle (fun op hop => holds.boundaries op (hsublist.subset hop))
    (fun op hop => holds.inside op (hsublist.subset hop)) (holds.ascending.sublist hsublist)
    (fun op hop => identityFor?_of_mem_offending hop)
  obtain ⟨before, after, htext, hstart, hstop⟩ := hcut.spans
  refine ⟨_, ?_, before, slots, tail, after, htext, hcut, rfl⟩
  have hfirst : (LineIndex.ofText text).characterOffset? chain.start = some before.length := by
    rw [htext, hstart, List.append_assoc]
    exact Text.characterOffset?_byteSize _ _
  have hlast : (LineIndex.ofText text).characterOffset? chain.stop =
      some (before ++ Slot.read (·.own) slots tail).length := by
    rw [htext, hstop]
    exact Text.characterOffset?_byteSize _ _
  have hbytes : startingAt (upTo (Text.encode text) chain.stop) chain.start =
      Text.encode (Slot.read (·.own) slots tail) := by
    rw [hstart, hstop, htext, upTo_encode, startingAt_encode]
  have hcorrected : corrected (Text.encode text) chain (offending none chain.children) =
      Text.encode (Slot.read (·.word) slots tail) := by
    unfold corrected
    dsimp only
    rw [hbytes, List.foldl_reverse]
    have hnothing : text.Spans chain.start chain.start [] := by
      refine ⟨before, Slot.read (·.own) slots tail ++ after, ?_, hstart, ?_⟩
      · rw [htext]
        simp
      · rw [hstart, List.append_nil]
    exact hcut.replace hnothing
  unfold editOf
  rw [hfirst, hlast, hcorrected]
  dsimp only
  rw [Text.decode?_encode]
  dsimp only
  have hlength : ((before ++ Slot.read (·.own) slots tail).length : Int) - before.length =
      (Slot.read (·.own) slots tail).length := by
    rw [List.length_append]
    omega
  rw [hlength, ofBounds_natCast]

theorem mapM_eq_ok_map_some {α β : Type} {f : α → Except Fault (Option β)} {R : α → β → Prop}
    {xs : List α} (h : ∀ a ∈ xs, ∃ b, f a = .ok (some b) ∧ R a b) :
    ∃ bs, xs.mapM f = .ok (bs.map some) ∧ List.Forall₂ R xs bs := by
  induction xs with
  | nil => exact ⟨[], rfl, .nil⟩
  | cons a rest ih =>
    obtain ⟨⟨b, hb, hr⟩, hrest⟩ := List.forall_mem_cons.mp h
    obtain ⟨bs, hbs, hforall⟩ := ih hrest
    refine ⟨b :: bs, ?_, .cons hr hforall⟩
    rw [List.mapM_cons, hb, hbs]
    rfl

theorem exists_of_forall₂ {α β : Type} {R : α → β → Prop} {xs : List α} {bs : List β} {b : β}
    (h : List.Forall₂ R xs bs) (hb : b ∈ bs) : ∃ a ∈ xs, R a b := by
  induction h with
  | nil => cases hb
  | @cons a b' _ _ hr _ ih =>
    rcases List.mem_cons.mp hb with rfl | hb
    · exact ⟨a, List.mem_cons_self, hr⟩
    · obtain ⟨x, hx, hrx⟩ := ih hb
      exact ⟨x, List.mem_cons_of_mem a hx, hrx⟩

/-- Where each chain that violates the rule gets an edit, these are the edits, in the order of the
chains. -/
theorem edits_of_editOf {f : SourceFile} {t : SyntaxTree}
    {R : SyntaxTree × List SyntaxTree → Edit → Prop}
    (h : ∀ violation ∈ violations t, ∃ e,
      editOf (Text.encode f.contents) (.ofText f.contents) violation.1 violation.2 =
          .ok (some e) ∧
        R violation e) :
    ∃ es, edits { file := f, index := .ofText f.contents, tree := t } = .ok es ∧
      List.Forall₂ R (violations t) es := by
  obtain ⟨es, hes, hforall⟩ := mapM_eq_ok_map_some h
  refine ⟨es, ?_, hforall⟩
  unfold edits
  dsimp only
  rw [hes]
  simp [Except.map]

/-- Where the operators of every chain lie in the text, each chain that violates the rule gets an
edit that rewrites it, in their order. -/
theorem edits_rewrite {f : SourceFile} {t : SyntaxTree}
    (holds : ∀ n ∈ t.preorder, n.kind = Comparison.chainKind → HoldsOperators f.contents n) :
    ∃ es, edits { file := f, index := .ofText f.contents, tree := t } = .ok es ∧
      List.Forall₂ (Rewrites f.contents) (violations t) es := by
  refine edits_of_editOf ?_
  rintro ⟨chain, ops⟩ h
  obtain ⟨hmem, hkind, hne, rfl⟩ := mem_violations h
  exact editOf_rewrites (holds chain hmem hkind) hne

/-- A word character stands at the end of a text. -/
def EndsInWord (text : Text) : Prop := ∃ c ∈ text.getLast?, Text.isWordChar c

/-- A word character stands at the start of a text. -/
def StartsWithWord (text : Text) : Prop := ∃ c ∈ text.head?, Text.isWordChar c

theorem endsInWord_append (a : Text) {b : Text} (hb : b ≠ []) :
    EndsInWord (a ++ b) ↔ EndsInWord b := by
  rw [EndsInWord, EndsInWord, List.getLast?_append_of_ne_nil a hb]

theorem startsWithWord_append {a : Text} (b : Text) (ha : a ≠ []) :
    StartsWithWord (a ++ b) ↔ StartsWithWord a := by
  rw [StartsWithWord, StartsWithWord, List.head?_append_of_ne_nil a ha]

/-- The equality operators and the identity operators for them. -/
theorem eq_of_identityFor? {kind word : Text} (h : identityFor? kind = some word) :
    (kind = "==".toList ∧ word = "is".toList) ∨
      (kind = "!=".toList ∧ word = "is not".toList) := by
  unfold identityFor? at h
  split at h
  next hkind => exact Or.inl ⟨hkind, (Option.some.inj h).symm⟩
  next =>
    split at h
    next hkind => exact Or.inr ⟨hkind, (Option.some.inj h).symm⟩
    next => cases h

theorem word_of_identityFor? {kind word : Text} (h : identityFor? kind = some word) :
    word ≠ [] ∧ EndsInWord word ∧ StartsWithWord word := by
  rcases eq_of_identityFor? h with ⟨-, rfl⟩ | ⟨-, rfl⟩
  · exact ⟨by decide, ⟨'s', rfl, by decide⟩, ⟨'i', rfl, by decide⟩⟩
  · exact ⟨by decide, ⟨'t', rfl, by decide⟩, ⟨'i', rfl, by decide⟩⟩

namespace Slot

/-- The slot holds an equality operator and the identity operator for it. -/
def Fits (s : Slot) : Prop := identityFor? s.own = some s.word

theorem Fits.isSome {s : Slot} (h : s.Fits) : (identityFor? s.own).isSome :=
  Option.isSome_iff_exists.mpr ⟨s.word, h⟩

theorem endsInWord_read_iff {early : List Slot} (fits : ∀ s ∈ early, s.Fits) (gap : Text) :
    EndsInWord (read (·.word) early gap) ↔
      EndsInWord (read (·.own) early gap) ∨ (gap = [] ∧ early ≠ []) := by
  by_cases hgap : gap = []
  · subst hgap
    rcases List.eq_nil_or_concat early with rfl | ⟨before, s, rfl⟩
    · simp [read]
    · obtain ⟨hne, hends, -⟩ := word_of_identityFor? (fits s (by simp))
      have hread : read (·.word) (before.concat s) [] =
          read (·.word) before s.gap ++ s.word := by
        simp [read]
      rw [hread, endsInWord_append _ hne]
      exact ⟨fun _ => Or.inr ⟨rfl, by simp⟩, fun _ => hends⟩
  · rw [read, read, endsInWord_append _ hgap, endsInWord_append _ hgap]
    simp [hgap]

theorem startsWithWord_read_iff {late : List Slot} (fits : ∀ s ∈ late, s.Fits) (tail : Text) :
    StartsWithWord (read (·.word) late tail) ↔
      StartsWithWord (read (·.own) late tail) ∨ ∃ next ∈ late.head?, next.gap = [] := by
  cases late with
  | nil => simp [read]
  | cons s rest =>
    obtain ⟨hne, -, hstarts⟩ := word_of_identityFor? (fits s (by simp))
    rw [read_cons, read_cons, List.append_assoc, List.append_assoc]
    by_cases hgap : s.gap = []
    · rw [hgap, List.nil_append, startsWithWord_append _ hne]
      exact ⟨fun _ => Or.inr ⟨s, rfl, hgap⟩, fun _ => hstarts⟩
    · rw [startsWithWord_append _ hgap, startsWithWord_append _ hgap]
      simp [hgap]

end Slot

theorem Cut.fits {text tail : Text} {start stop : Int} {ops : List SyntaxTree}
    {slots : List Slot} (h : Cut text stop start ops slots tail)
    (spelled : ∀ op ∈ ops, text.Spans op.start op.stop op.kind) : ∀ s ∈ slots, s.Fits := by
  induction h with
  | tail => exact List.forall_mem_nil _
  | operator _ hown identity _ ih =>
    obtain ⟨hop, hops⟩ := List.forall_mem_cons.mp spelled
    refine List.forall_mem_cons.mpr ⟨?_, ih hops⟩
    rw [hown.unique hop]
    exact identity

/-- A word character stands right beside an identity operator put in exactly where one stood beside
the operator that was there, or where two replaced operators stand side by side. -/
theorem edits_join_as_operators {f : SourceFile} {t : SyntaxTree}
    (holds : ∀ n ∈ t.preorder, n.kind = Comparison.chainKind → HoldsOperators f.contents n)
    (spelled : ∀ n ∈ t.preorder, n.kind = Comparison.chainKind → Spelled f.contents n) :
    ∃ es, edits { file := f, index := .ofText f.contents, tree := t } = .ok es ∧
      ∀ e ∈ es, ∃ before slots tail after,
        f.contents = before ++ Slot.read (·.own) slots tail ++ after ∧
        e = ⟨before.length, (Slot.read (·.own) slots tail).length,
          Slot.read (·.word) slots tail⟩ ∧
        slots ≠ [] ∧ (∀ s ∈ slots, s.Fits) ∧
        ∀ early s late, slots = early ++ s :: late →
          (EndsInWord (Slot.read (·.word) early s.gap) ↔
            EndsInWord (Slot.read (·.own) early s.gap) ∨ (s.gap = [] ∧ early ≠ [])) ∧
          (StartsWithWord (Slot.read (·.word) late tail) ↔
            StartsWithWord (Slot.read (·.own) late tail) ∨ ∃ next ∈ late.head?, next.gap = []) := by
  obtain ⟨es, hes, hforall⟩ := edits_rewrite holds
  refine ⟨es, hes, fun e he => ?_⟩
  obtain ⟨⟨chain, ops⟩, hviolation, before, slots, tail, after, htext, hcut, hedit⟩ :=
    exists_of_forall₂ hforall he
  obtain ⟨hmem, hkind, hne, hops⟩ := mem_violations hviolation
  have hfits : ∀ s ∈ slots, s.Fits := by
    refine hcut.fits fun op hop => ?_
    rw [hops] at hop
    exact spelled chain hmem hkind op ((offending_sublist _ _).subset hop)
      (identityFor?_of_mem_offending hop)
  refine ⟨before, slots, tail, after, htext, hedit, ?_, hfits, ?_⟩
  · rintro rfl
    cases hcut
    exact hne rfl
  · rintro early s late rfl
    exact ⟨Slot.endsInWord_read_iff (fun t ht => hfits t (by simp [ht])) s.gap,
      Slot.startsWithWord_read_iff (fun t ht => hfits t (by simp [ht])) tail⟩

/-- A comparison with `None` without spaces. -/
def unspacedChain : SyntaxTree :=
  .node Comparison.chainKind 0 7
    [.node "identifier".toList 0 1 [], .node "==".toList 1 3 [], .node Comparison.noneKind 3 7 []]

/-- The tree of a text that is such a comparison. -/
def unspacedTree : SyntaxTree :=
  .node "module".toList 0 8 [.node "expression_statement".toList 0 7 [unspacedChain]]

theorem eq_unspacedChain {n : SyntaxTree} (hn : n ∈ unspacedTree.preorder)
    (hkind : n.kind = Comparison.chainKind) : n = unspacedChain := by
  simp only [unspacedTree, unspacedChain, SyntaxTree.preorder, SyntaxTree.preorderAll,
    List.append_nil, List.mem_cons, List.cons_append, List.nil_append, List.not_mem_nil,
    or_false] at hn
  rcases hn with rfl | rfl | rfl | rfl | rfl | rfl
  · exact absurd hkind (by decide)
  · exact absurd hkind (by decide)
  · rfl
  · exact absurd hkind (by decide)
  · exact absurd hkind (by decide)
  · exact absurd hkind (by decide)

theorem edits_join_as_operators_unspaced :
    let f : SourceFile := { contents := "x==None\n".toList }
    (∀ n ∈ unspacedTree.preorder, n.kind = Comparison.chainKind → HoldsOperators f.contents n) ∧
      (∀ n ∈ unspacedTree.preorder, n.kind = Comparison.chainKind → Spelled f.contents n) ∧
      ∃ es, edits { file := f, index := .ofText f.contents, tree := unspacedTree } = .ok es ∧
        ∀ e ∈ es, ∃ before slots tail after,
          f.contents = before ++ Slot.read (·.own) slots tail ++ after ∧
          e.replacement = Slot.read (·.word) slots tail ∧ slots ≠ [] := by
  intro f
  have operator : f.contents.Spans 1 3 "==".toList := ⟨"x".toList, "None\n".toList, rfl, rfl, rfl⟩
  have hoperators : operators unspacedChain = [.node "==".toList 1 3 []] := rfl
  have holds : HoldsOperators f.contents unspacedChain :=
    { start_boundary := ⟨[], f.contents, rfl, rfl⟩
      stop_boundary := ⟨"x==None".toList, "\n".toList, rfl, rfl⟩
      boundaries := by
        rw [hoperators]
        exact List.forall_mem_singleton.mpr ⟨operator.start_boundary, operator.stop_boundary⟩
      inside := by decide
      ascending := by decide }
  have spelled : Spelled f.contents unspacedChain := by
    intro c hc hidentity
    obtain rfl : c = .node "==".toList 1 3 [] := by
      have hmem : c ∈ operators unspacedChain := List.mem_filter.mpr ⟨hc, hidentity⟩
      rw [hoperators] at hmem
      exact List.mem_singleton.mp hmem
    exact operator
  have hall : ∀ n ∈ unspacedTree.preorder, n.kind = Comparison.chainKind →
      HoldsOperators f.contents n ∧ Spelled f.contents n := by
    intro n hn hkind
    rw [eq_unspacedChain hn hkind]
    exact ⟨holds, spelled⟩
  have hholds := fun n hn hkind => (hall n hn hkind).1
  have hspelled := fun n hn hkind => (hall n hn hkind).2
  obtain ⟨es, hes, hread⟩ := edits_join_as_operators hholds hspelled
  refine ⟨hholds, hspelled, es, hes, fun e he => ?_⟩
  obtain ⟨before, slots, tail, after, htext, hedit, hne, -, -⟩ := hread e he
  exact ⟨before, slots, tail, after, htext, by rw [hedit], hne⟩

/-- A name that stands right before an operator is glued to the operator put in. -/
theorem edits_glue_name :
    let f : SourceFile := { contents := "x==None\n".toList }
    edits { file := f, index := .ofText f.contents, tree := unspacedTree } =
        .ok [⟨0, 7, "xisNone".toList⟩] ∧
      EndsInWord "x".toList ∧ StartsWithWord "None".toList := by
  intro f
  refine ⟨?_, ⟨'x', rfl, by decide⟩, ⟨'N', rfl, by decide⟩⟩
  unfold edits violations SyntaxTree.nodes
  simp only [SyntaxTree.visit_eq_preorderAll]
  decide +kernel

end NoneComparison

end StyleRules
