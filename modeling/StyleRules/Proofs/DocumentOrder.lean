import StyleRules.Proofs.ChainEdits

namespace StyleRules

namespace SyntaxTree

/-- Where a node stands below another one: which child to go to, level by level. -/
abbrev Address := List Nat

/-- The node at an address. -/
def at? (t : SyntaxTree) : Address → Option SyntaxTree
  | [] => some t
  | i :: rest => t.children[i]?.bind fun c => c.at? rest

/-- An address comes before those below it, and at the first level where two addresses part the one
that goes to the earlier child comes before the other. -/
def Address.Before (a b : Address) : Prop := List.Lex (· < ·) a b

/-- No address comes before one that it is below, or before itself. -/
theorem Address.Before.not_below {a b : Address} (h : a.Before b) : ¬ b <+: a := by
  rintro ⟨more, hmore⟩
  unfold Address.Before at h
  induction h with
  | nil => cases hmore
  | rel hlt =>
    obtain ⟨rfl, -⟩ := List.cons.inj hmore
    exact Nat.lt_irrefl _ hlt
  | cons _ ih => exact ih (List.cons.inj hmore).2

/-- A list holds exactly the nodes of a tree that have a property, each once, in the order of their
addresses; `places` has each of them with its address. -/
structure InDocumentOrder (t : SyntaxTree) (p : SyntaxTree → Prop) (ns : List SyntaxTree)
    (places : List (Address × SyntaxTree)) : Prop where
  nodes_eq : ns = places.map (·.2)
  mem_iff : ∀ a n, (a, n) ∈ places ↔ t.at? a = some n ∧ p n
  ascending : places.Pairwise fun x y => x.1.Before y.1
  /-- No node stands in the list after one that is below it. -/
  outer_first : places.Pairwise fun x y => ¬ y.1 <+: x.1

mutual

/-- The nodes of a tree in preorder, each with its address. -/
def located : SyntaxTree → List (Address × SyntaxTree)
  | node k s e cs => ([], node k s e cs) :: locatedFrom 0 cs

/-- The nodes of children, the first of which has that index. -/
def locatedFrom (i : Nat) : List SyntaxTree → List (Address × SyntaxTree)
  | [] => []
  | t :: ts => (located t).map (fun x => (i :: x.1, x.2)) ++ locatedFrom (i + 1) ts

end

mutual

theorem map_snd_located (t : SyntaxTree) : t.located.map (·.2) = t.preorder := by
  cases t with
  | node k s e cs =>
    have hcs := map_snd_locatedFrom 0 cs
    rw [located, preorder, List.map_cons, hcs]

theorem map_snd_locatedFrom (i : Nat) (ts : List SyntaxTree) :
    (locatedFrom i ts).map (·.2) = preorderAll ts := by
  cases ts with
  | nil => rfl
  | cons t ts =>
    have ht := map_snd_located t
    have hts := map_snd_locatedFrom (i + 1) ts
    rw [locatedFrom, preorderAll, List.map_append, List.map_map, hts, ← ht]
    rfl

end

theorem mem_locatedFrom_iff {i : Nat} {ts : List SyntaxTree} {a : Address} {n : SyntaxTree} :
    (a, n) ∈ locatedFrom i ts ↔
      ∃ j rest c, a = (i + j) :: rest ∧ ts[j]? = some c ∧ (rest, n) ∈ c.located := by
  induction ts generalizing i with
  | nil => simp [locatedFrom]
  | cons t ts ih =>
    rw [locatedFrom, List.mem_append, List.mem_map, ih]
    constructor
    · rintro (⟨⟨rest, _⟩, hmem, hx⟩ | ⟨j, rest, c, rfl, hc, hmem⟩)
      · cases hx
        exact ⟨0, rest, t, rfl, rfl, hmem⟩
      · exact ⟨j + 1, rest, c, by rw [Nat.add_assoc, Nat.add_comm 1 j], hc, hmem⟩
    · rintro ⟨j, rest, c, rfl, hc, hmem⟩
      cases j with
      | zero =>
        cases Option.some.inj hc
        exact Or.inl ⟨(rest, n), hmem, rfl⟩
      | succ j => exact Or.inr ⟨j, rest, c, by rw [Nat.add_assoc, Nat.add_comm 1 j], hc, hmem⟩

/-- A node is located at an address if it is the node at that address. -/
theorem mem_located_iff {t n : SyntaxTree} {a : Address} :
    (a, n) ∈ t.located ↔ t.at? a = some n := by
  induction a generalizing t with
  | nil =>
    cases t with
    | node k s e cs => simp [located, at?, mem_locatedFrom_iff, eq_comm]
  | cons i rest ih =>
    cases t with
    | node k s e cs =>
      have hcs : (i :: rest, n) ∈ locatedFrom 0 cs ↔
          ∃ c, cs[i]? = some c ∧ (rest, n) ∈ c.located := by
        simp [mem_locatedFrom_iff]
      simp only [located, List.mem_cons, Prod.mk.injEq, reduceCtorEq, false_and, false_or, hcs, at?,
        children, Option.bind_eq_some_iff, ih]

mutual

theorem ascending_located (t : SyntaxTree) :
    t.located.Pairwise fun x y => x.1.Before y.1 := by
  cases t with
  | node k s e cs =>
    have hcs := ascending_locatedFrom 0 cs
    rw [located]
    refine List.pairwise_cons.mpr ⟨fun y hy => ?_, hcs⟩
    obtain ⟨b, m⟩ := y
    obtain ⟨j, rest, -, rfl, -⟩ := mem_locatedFrom_iff.mp hy
    exact List.Lex.nil

theorem ascending_locatedFrom (i : Nat) (ts : List SyntaxTree) :
    (locatedFrom i ts).Pairwise fun x y => x.1.Before y.1 := by
  cases ts with
  | nil => exact List.Pairwise.nil
  | cons t ts =>
    have ht := ascending_located t
    have hts := ascending_locatedFrom (i + 1) ts
    rw [locatedFrom]
    refine List.pairwise_append.mpr ⟨?_, hts, fun x hx y hy => ?_⟩
    · exact List.pairwise_map.mpr (ht.imp fun hbefore => List.Lex.cons hbefore)
    · -- The two addresses part at once: the children from here on have a higher index.
      obtain ⟨b, m⟩ := y
      obtain ⟨⟨a, n⟩, -, rfl⟩ := List.mem_map.mp hx
      obtain ⟨j, rest, -, rfl, -⟩ := mem_locatedFrom_iff.mp hy
      exact List.Lex.rel (by omega)

end

/-- The nodes of the preorder with a property stand in document order. -/
theorem exists_inDocumentOrder_filter (t : SyntaxTree) {p : SyntaxTree → Prop}
    {test : SyntaxTree → Bool} (htest : ∀ n, test n = true ↔ p n) :
    ∃ places, InDocumentOrder t p (t.preorder.filter test) places := by
  have ascending := (ascending_located t).filter fun x => test x.2
  refine ⟨t.located.filter fun x => test x.2, ?_, fun a n => ?_, ascending,
    ascending.imp Address.Before.not_below⟩
  · rw [← map_snd_located, List.filter_map]
    rfl
  · rw [List.mem_filter, mem_located_iff, htest]

/-- A walk with a stack: the nodes that wait, the next one last, and the nodes found so far. -/
structure Walk where
  waiting : List SyntaxTree
  found : List SyntaxTree

namespace Walk

variable (ofKind : Option Text)

/-- One turn: the next node is taken off the stack and is found if it is of the kind, and its
children are put on the stack, the last one first. With nothing waiting there is no further turn. -/
def turn? (w : Walk) : Option Walk :=
  w.waiting.getLast?.map fun n =>
    { waiting := w.waiting.dropLast ++ n.children.reverse
      found := if ofKind.all (· = n.kind) then w.found ++ [n] else w.found }

/-- A walk after exactly that many turns, if it makes so many. -/
def turns? : Nat → Walk → Option Walk
  | 0, w => some w
  | k + 1, w => (w.turn? ofKind).bind (turns? k)

/-- The nodes that a walk has ahead of it: those waiting and everything below them. -/
def ahead (waiting : List SyntaxTree) : List SyntaxTree := visit waiting.reverse

/-- What a walk will have found when nothing waits any more. -/
def outcome (w : Walk) : List SyntaxTree :=
  w.found ++ (ahead w.waiting).filter fun n => ofKind.all (· = n.kind)

theorem ahead_concat (rest : List SyntaxTree) (n : SyntaxTree) :
    ahead (rest ++ [n]) = n :: ahead (rest ++ n.children.reverse) := by
  simp only [ahead, List.reverse_append, List.reverse_reverse, List.reverse_singleton,
    List.singleton_append]
  rw [visit]

theorem turn?_concat (rest : List SyntaxTree) (n : SyntaxTree) (found : List SyntaxTree) :
    turn? ofKind { waiting := rest ++ [n], found } =
      some { waiting := rest ++ n.children.reverse
             found := if ofKind.all (· = n.kind) then found ++ [n] else found } := by
  simp only [turn?, List.getLast?_concat, List.dropLast_concat, Option.map_some]

/-- A turn visits one of the nodes ahead, and what the walk will have found stays the same. -/
theorem exists_turn {w : Walk} (hw : w.waiting ≠ []) :
    ∃ next, w.turn? ofKind = some next ∧
      (ahead w.waiting).length = (ahead next.waiting).length + 1 ∧
      next.outcome ofKind = w.outcome ofKind := by
  obtain ⟨waiting, found⟩ := w
  obtain ⟨rest, n, rfl⟩ := (List.eq_nil_or_concat' waiting).resolve_left hw
  refine ⟨_, turn?_concat ofKind rest n found, ?_, ?_⟩
  · exact congrArg List.length (ahead_concat rest n)
  · rw [outcome, outcome, ahead_concat, List.filter_cons]
    by_cases hkind : ofKind.all (· = n.kind)
    · simp only [hkind, if_true, List.append_assoc, List.singleton_append]
    · simp only [hkind, Bool.false_eq_true, if_false]

/-- A walk makes one turn for each node ahead of it; then nothing waits. -/
theorem turns?_ahead (w : Walk) : turns? ofKind (ahead w.waiting).length w =
    some { waiting := [], found := w.outcome ofKind } := by
  -- By the nodes ahead, of which a turn takes one; the outcome is what every turn keeps.
  induction hlength : (ahead w.waiting).length generalizing w with
  | zero =>
    have hw : w.waiting = [] := by
      by_contra hne
      obtain ⟨next, -, hahead, -⟩ := exists_turn ofKind hne
      omega
    rw [turns?, outcome, List.length_eq_zero_iff.mp hlength, List.filter_nil, List.append_nil,
      ← hw]
  | succ k ih =>
    have hw : w.waiting ≠ [] := by
      intro hnil
      simp [ahead, hnil, visit] at hlength
    obtain ⟨next, hturn, hahead, houtcome⟩ := exists_turn ofKind hw
    rw [turns?, hturn, Option.bind_some, ih next (by omega), houtcome]

end Walk

/-- A walk with a stack makes one turn for each node of a tree and finds the nodes of a kind in
document order, each once. -/
theorem nodes_in_document_order (t : SyntaxTree) (ofKind : Option Text) :
    Walk.turns? ofKind t.preorder.length { waiting := [t], found := [] } =
        some { waiting := [], found := t.nodes ofKind } ∧
      t.nodes ofKind = t.preorder.filter (fun n => ofKind.all (· = n.kind)) ∧
      (∃ places, InDocumentOrder t (fun n => ∀ kind ∈ ofKind, n.kind = kind) (t.nodes ofKind)
        places) ∧
      ∃ places, InDocumentOrder t
        (fun n => n.kind = Comparison.chainKind ∧
          NoneComparison.operatorsBesideNone n.children ≠ [])
        ((NoneComparison.violations t).map (·.1)) places := by
  refine ⟨?_, nodes_eq_filter t ofKind, ?_, ?_⟩
  · have hturns := Walk.turns?_ahead ofKind { waiting := [t], found := [] }
    rw [Walk.outcome, Walk.ahead, List.reverse_singleton, visit_singleton,
      List.nil_append] at hturns
    rw [hturns, nodes_eq_filter]
  · rw [nodes_eq_filter]
    refine exists_inDocumentOrder_filter t fun n => ?_
    rw [Option.all_eq_true]
    exact forall₂_congr fun kind _ => decide_eq_true_iff.trans eq_comm
  · have hreported : (NoneComparison.violations t).map (·.1) = NoneComparison.reported t := by
      rw [NoneComparison.violations_eq_reported, List.map_map]
      exact List.map_id _
    rw [hreported]
    exact exists_inDocumentOrder_filter t fun n => decide_eq_true_iff

/-- The chain outside the brackets comes first, then the chains in its operands from left to right. -/
example : ((ofText "(a == b) == c[d == None]\n".toList).nodes (some Comparison.chainKind)).map
    (·.start) = [0, 1, 14] := by
  simp only [nodes, visit_eq_preorderAll]
  decide +kernel

end SyntaxTree

end StyleRules
