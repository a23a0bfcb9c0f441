import StyleRules.Parser
import StyleRules.Proofs.Respelling

namespace StyleRules

namespace NoneComparison

/-- The comparison chains of a tree, without what is below their children. -/
def chains (t : SyntaxTree) : List SyntaxTree :=
  (t.nodes (some Comparison.chainKind)).map SyntaxTree.flat

/-- A chain of a tree has an equality operator at a byte offset. -/
def HasOperator (t : SyntaxTree) (own : Text) (place : Nat) : Prop :=
  ∃ n ∈ chains t, ∃ op ∈ operators n, op.kind = own ∧ op.start = place

/-- The chains of a tree lie in a text, their equality operators are where the text says so, and no
chain starts within such an operator. -/
structure ChainsIn (text : Text) (t : SyntaxTree) : Prop where
  holds : ∀ n ∈ t.preorder, n.kind = Comparison.chainKind → HoldsOperators text n
  spelled : ∀ n ∈ t.preorder, n.kind = Comparison.chainKind → Spelled text n
  outside : ∀ n ∈ chains t, ∀ m ∈ chains t, ∀ op ∈ operators m,
    n.start ≤ op.start ∨ op.stop ≤ n.start

/-- What is relied on of a parser and of the texts that are well-formed Python. -/
structure ReadsChains [Parser] (WellFormed : Text → Prop) : Prop where
  /-- A well-formed text has a tree, whose chains lie in the text. -/
  reads : ∀ {text : Text}, WellFormed text →
    ∃ t, Parser.parse .python text = .ok t ∧ ChainsIn text t
  /-- An equality operator and the identity operator for it are alternatives of one rule of the
  grammar, so a text stays well-formed with one for the other, and its chains are respelled. -/
  respells : ∀ {u own r : Text} {place : Nat} {t : SyntaxTree} (fits : (identityFor? own).isSome),
    WellFormed (u ++ ' ' :: (own ++ ' ' :: r)) →
    Parser.parse .python (u ++ ' ' :: (own ++ ' ' :: r)) = .ok t →
    place = Text.byteSize (u ++ [' ']) → HasOperator t own place →
    let ρ := Respelling.inPlace place fits
    WellFormed (u ++ ' ' :: (ρ.word ++ ' ' :: r)) ∧
      ∀ t', Parser.parse .python (u ++ ' ' :: (ρ.word ++ ' ' :: r)) = .ok t' →
        chains t' = (chains t).map ρ.tree

namespace ReadsChains

variable [Parser] {WellFormed : Text → Prop} (grammar : ReadsChains WellFormed)
include grammar

theorem chainsIn {text : Text} {t : SyntaxTree} (wellFormed : WellFormed text)
    (parsed : Parser.parse .python text = .ok t) : ChainsIn text t := by
  obtain ⟨read, hread, lies⟩ := grammar.reads wellFormed
  cases Except.ok.inj (hread.symm.trans parsed)
  exact lies

/-- A text in which an operator is respelled has a tree too. -/
theorem exists_respelled {u own r : Text} {place : Nat} {t : SyntaxTree}
    (fits : (identityFor? own).isSome) (wellFormed : WellFormed (u ++ ' ' :: (own ++ ' ' :: r)))
    (parsed : Parser.parse .python (u ++ ' ' :: (own ++ ' ' :: r)) = .ok t)
    (hplace : place = Text.byteSize (u ++ [' '])) (operator : HasOperator t own place) :
    let ρ := Respelling.inPlace place fits
    ∃ t', WellFormed (u ++ ' ' :: (ρ.word ++ ' ' :: r)) ∧
      Parser.parse .python (u ++ ' ' :: (ρ.word ++ ' ' :: r)) = .ok t' ∧
      chains t' = (chains t).map ρ.tree := by
  intro ρ
  obtain ⟨hnext, hrespelled⟩ := grammar.respells fits wellFormed parsed hplace operator
  obtain ⟨t', hparsed, -⟩ := grammar.reads hnext
  exact ⟨t', hnext, hparsed, hrespelled t' hparsed⟩

end ReadsChains

theorem mem_chains {t n : SyntaxTree} (hn : n ∈ t.preorder)
    (hkind : n.kind = Comparison.chainKind) : n.flat ∈ chains t :=
  List.mem_map_of_mem (SyntaxTree.mem_nodes_iff.mpr ⟨hn, hkind⟩)

theorem leaf_mem_operators {n op : SyntaxTree} (h : op ∈ operators n) :
    op.leaf ∈ operators n.flat := by
  obtain ⟨hmem, hidentity⟩ := List.mem_filter.mp h
  exact List.mem_filter.mpr ⟨List.mem_map_of_mem hmem, hidentity⟩

/-- The operators of a chain are among those of the tree. -/
theorem hasOperator_of_mem {t n op : SyntaxTree} {place : Nat} (hn : n ∈ t.preorder)
    (hkind : n.kind = Comparison.chainKind) (hop : op ∈ operators n) (hstart : op.start = place) :
    HasOperator t op.kind place :=
  ⟨n.flat, mem_chains hn hkind, op.leaf, leaf_mem_operators hop, rfl, hstart⟩

theorem violationsAmong_chains (t : SyntaxTree) : violationsAmong (chains t) =
    (violations t).map fun v => (v.1.flat, v.2.map SyntaxTree.leaf) :=
  violationsAmong_map_flat _

theorem fst_mem_of_mem_violationsAmong {ns : List SyntaxTree}
    {v : SyntaxTree × List SyntaxTree} (h : v ∈ violationsAmong ns) : v.1 ∈ ns := by
  obtain ⟨n, hn, h⟩ := List.mem_filterMap.mp h
  split at h
  next => cases h
  next =>
    cases Option.some.inj h
    exact hn

namespace ChainsIn

variable {text : Text} {t : SyntaxTree} (lies : ChainsIn text t)
include lies

theorem start_boundary {n : SyntaxTree} (hn : n ∈ chains t) : text.Boundary n.start := by
  obtain ⟨n, hnode, rfl⟩ := List.mem_map.mp hn
  obtain ⟨hmem, hkind⟩ := SyntaxTree.mem_nodes_iff.mp hnode
  exact (lies.holds n hmem hkind).start_boundary

theorem operator_spans {n op : SyntaxTree} (hn : n ∈ chains t) (hop : op ∈ operators n) :
    text.Spans op.start op.stop op.kind := by
  obtain ⟨n, hnode, rfl⟩ := List.mem_map.mp hn
  obtain ⟨hmem, hkind⟩ := SyntaxTree.mem_nodes_iff.mp hnode
  obtain ⟨hchild, hidentity⟩ := List.mem_filter.mp hop
  obtain ⟨c, hc, rfl⟩ := List.mem_map.mp hchild
  exact lies.spelled n hmem hkind c hc hidentity

/-- No chain starts at the second character of an equality operator. -/
theorem start_ne {own : Text} {place : Nat} (operator : HasOperator t own place)
    {n : SyntaxTree} (hn : n ∈ chains t) : n.start ≠ place + 1 := by
  obtain ⟨m, hm, op, hop, -, hstart⟩ := operator
  have hstop := (lies.operator_spans hm hop).stop_eq
  have hsize := byteSize_of_fits (List.mem_filter.mp hop).2
  rcases lies.outside n hn m hm op hop with h | h
  · omega
  · omega

end ChainsIn

/-- An operator that stands before the one that is respelled stays. -/
theorem HasOperator.of_respelled {t t' : SyntaxTree} {own kind : Text} {place k : Nat}
    (fits : (identityFor? own).isSome)
    (respelled : chains t' = (chains t).map (Respelling.inPlace place fits).tree)
    (h : HasOperator t kind k) (hk : k < place) : HasOperator t' kind k := by
  obtain ⟨n, hn, op, hop, rfl, hstart⟩ := h
  obtain ⟨hmem, hidentity⟩ := List.mem_filter.mp hop
  have hkind : ((Respelling.inPlace place fits).tree op).kind = op.kind := by
    have hne : op.start ≠ (Respelling.inPlace place fits).place := by
      change op.start ≠ place
      omega
    rw [Respelling.tree_kind, Respelling.kindAt_of_ne _ _ hne]
  refine ⟨(Respelling.inPlace place fits).tree n, ?_, (Respelling.inPlace place fits).tree op,
    List.mem_filter.mpr ⟨?_, ?_⟩, hkind, ?_⟩
  · rw [respelled]
    exact List.mem_map_of_mem hn
  · rw [Respelling.tree_children]
    exact List.mem_map_of_mem hmem
  · rw [hkind]
    exact hidentity
  · rw [Respelling.tree_start, hstart, Int.toNat_natCast, move_of_le fits (Nat.le_of_lt hk)]

end NoneComparison

end StyleRules
