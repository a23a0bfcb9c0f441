import StyleRules.Proofs.SplicedOperators

namespace StyleRules

namespace NoneComparison

/-- `None` is the child directly before or after the child at an index. -/
def besideNone (children : List SyntaxTree) (i : Nat) : Bool :=
  (i != 0 && children[i - 1]?.any (·.kind = Comparison.noneKind)) ||
    children[i + 1]?.any (·.kind = Comparison.noneKind)

/-- The equality operators among children that have `None` directly before or after them. -/
def operatorsBesideNone (children : List SyntaxTree) : List SyntaxTree :=
  (children.zipIdx.filter fun c => (identityFor? c.1.kind).isSome && besideNone children c.2).map
    (·.1)

/-- The chains of a tree that have such an operator, in document order. -/
def reported (t : SyntaxTree) : List SyntaxTree :=
  t.preorder.filter fun n =>
    n.kind = Comparison.chainKind ∧ operatorsBesideNone n.children ≠ []

theorem besideNone_append (early : List SyntaxTree) (child : SyntaxTree)
    (rest : List SyntaxTree) : besideNone (early ++ child :: rest) early.length =
      (early.getLast?.any (·.kind = Comparison.noneKind) ||
        rest.head?.any (·.kind = Comparison.noneKind)) := by
  have hnext : (early ++ child :: rest)[early.length + 1]? = rest.head? := by
    rw [List.getElem?_append_right (by omega), Nat.add_sub_cancel_left, List.head?_eq_getElem?]
    rfl
  rw [besideNone, hnext]
  rcases List.eq_nil_or_concat' early with rfl | ⟨before, previous, rfl⟩
  · rfl
  · have hprevious : (before ++ [previous] ++ child :: rest)[
        (before ++ [previous]).length - 1]? = some previous := by
      simp
    rw [hprevious, List.getLast?_concat]
    simp

/-- What comes before the rest of the children counts by its last child only. -/
theorem offending_eq_filter (early rest : List SyntaxTree) :
    offending early.getLast? rest = ((rest.zipIdx early.length).filter fun c =>
      (identityFor? c.1.kind).isSome && besideNone (early ++ rest) c.2).map (·.1) := by
  induction rest generalizing early with
  | nil => rfl
  | cons child rest ih =>
    have hrest := ih (early ++ [child])
    rw [List.getLast?_concat, List.length_append, List.length_singleton, List.append_assoc,
      List.singleton_append] at hrest
    have hhere := besideNone_append early child rest
    unfold offending
    dsimp only
    rw [List.zipIdx_cons, hrest, ← hhere, List.filter_cons]
    dsimp only
    split
    next => rfl
    next => rfl

theorem offending_eq_operatorsBesideNone (children : List SyntaxTree) :
    offending none children = operatorsBesideNone children :=
  offending_eq_filter [] children

theorem violations_eq_reported (t : SyntaxTree) :
    violations t = (reported t).map fun n => (n, operatorsBesideNone n.children) := by
  unfold violations reported
  rw [SyntaxTree.nodes_eq_filter]
  generalize t.preorder = ns
  induction ns with
  | nil => rfl
  | cons n ns ih =>
    by_cases hkind : n.kind = Comparison.chainKind
    · rw [List.filter_cons_of_pos (by simpa using hkind.symm), List.filterMap_cons, ih,
        offending_eq_operatorsBesideNone]
      cases hops : operatorsBesideNone n.children with
      | nil => rw [List.filter_cons_of_neg (by simp [hops])]
      | cons op ops =>
        rw [List.filter_cons_of_pos (by simp [hkind, hops]), List.map_cons, hops]
    · rw [List.filter_cons_of_neg (by simpa using Ne.symm hkind), ih,
        List.filter_cons_of_neg (by simp [hkind])]

/-- An edit covers the characters of a chain, and puts in their place the same characters with the
operators beside `None` replaced by the identity operators for them. -/
structure Corrects (text : Text) (chain : SyntaxTree) (e : Edit) : Prop where
  within : e.stop ≤ text.length
  starts : (Text.byteSize (text.take e.offset) : Int) = chain.start
  stops : (Text.byteSize (text.take e.stop) : Int) = chain.stop
  replaces : ∃ slots tail,
    Cut text chain.stop chain.start (operatorsBesideNone chain.children) slots tail ∧
      (text.drop e.offset).take e.length = Slot.read (·.own) slots tail ∧
      e.replacement = Slot.read (·.word) slots tail

theorem corrects_of_rewritesAt {text : Text} {chain : SyntaxTree} {e : Edit}
    (h : RewritesAt text (chain, operatorsBesideNone chain.children) e) :
    Corrects text chain e := by
  obtain ⟨before, slots, tail, after, htext, hcut, rfl, hstart⟩ := h
  dsimp only at hcut hstart
  have hoffset : text.take before.length = before := by
    rw [htext, List.append_assoc, List.take_left]
  have hbehind : text.drop before.length = Slot.read (·.own) slots tail ++ after := by
    rw [htext, List.append_assoc, List.drop_left]
  have hstop : text.take (before.length + (Slot.read (·.own) slots tail).length) =
      before ++ Slot.read (·.own) slots tail := by
    rw [htext, ← List.length_append, List.take_left]
  refine ⟨?_, ?_, ?_, slots, tail, hcut, ?_, rfl⟩
  · rw [Edit.stop, htext, List.length_append, List.length_append]
    exact Nat.le_add_right _ _
  · rw [hoffset, hstart]
  · have hsize := hcut.spans.stop_eq
    rw [Edit.stop, hstop, Text.byteSize_append, hsize, hstart, Int.natCast_add]
  · rw [hbehind, List.take_left]

/-- Where the operators of every chain lie in the text, one edit is proposed for each chain that is
reported, at the same place, and it replaces exactly the equality operators beside `None`. -/
theorem edits_correct_reported (s : Settings) {f : SourceFile} {t : SyntaxTree}
    (holds : ∀ n ∈ t.preorder, n.kind = Comparison.chainKind → HoldsOperators f.contents n) :
    let v : View := { file := f, index := .ofText f.contents, tree := t }
    ∃ es, RuleKind.noneComparison.corrector.map (·.edits s v) = some (.ok es) ∧
      RuleKind.noneComparison.inspect s v = .ok ((reported t).map fun n =>
        description.diagnostic s.severity
          (SourceFile.placeByte f.identifier (.ofText f.contents) n.start)) ∧
      es.map (fun e => f.locate e.offset) = (reported t).map (fun n =>
        SourceFile.placeByte f.identifier (.ofText f.contents) n.start) ∧
      List.Forall₂ (Corrects f.contents) (reported t) es := by
  intro v
  obtain ⟨es, hes, hforall⟩ := edits_of_holdsOperators holds
  have hplaces := map_locate_of_rewritesAt hforall
  rw [violations_eq_reported, List.map_map] at hplaces
  rw [violations_eq_reported, List.forall₂_map_left_iff] at hforall
  refine ⟨es, congrArg some hes, ?_, hplaces, hforall.imp fun _ _ h => corrects_of_rewritesAt h⟩
  have hinspect : RuleKind.noneComparison.inspect s v = .ok ((violations t).map fun p =>
      description.diagnostic s.severity (placeOf v p.1)) := rfl
  rw [hinspect, violations_eq_reported, List.map_map]
  rfl

/-- A chain of three operators, of which the last has no `None` beside it, in a text with characters of
several bytes. -/
theorem edits_correct_reported_chain :
    let f : SourceFile := { contents := "é = ü != None == '€' == b\n".toList }
    let t := SyntaxTree.ofText f.contents
    let v : View := { file := f, index := .ofText f.contents, tree := t }
    let e : Edit := ⟨4, 21, "ü is not None is '€' == b".toList⟩
    (∀ n ∈ t.preorder, n.kind = Comparison.chainKind → HoldsOperators f.contents n) ∧
      edits v = .ok [e] ∧ ∃ n, reported t = [n] ∧ Corrects f.contents n e := by
  intro f t v e
  have holds : ∀ n ∈ t.preorder, n.kind = Comparison.chainKind → HoldsOperators f.contents n :=
    fun n hn hkind => (sound_ofText f.contents n hn hkind).1.holdsOperators
  have hedits : edits v = .ok [e] := by
    unfold edits violations SyntaxTree.nodes
    simp only [SyntaxTree.visit_eq_preorderAll]
    decide +kernel
  obtain ⟨es, hes, -, -, hforall⟩ := edits_correct_reported {} holds
  cases Except.ok.inj ((Option.some.inj hes).symm.trans hedits)
  obtain ⟨n, rest, hn, hrest, hreported⟩ := List.forall₂_cons_right_iff.mp hforall
  cases hrest
  exact ⟨holds, hedits, n, hreported, hn⟩

end NoneComparison

end StyleRules
