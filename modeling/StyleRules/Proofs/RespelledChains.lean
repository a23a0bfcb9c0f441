import StyleRules.Proofs.ChainGrammar
import StyleRules.Proofs.RespelledTrees
import Mathlib.Data.List.Pairwise

namespace StyleRules

namespace SyntaxTree

/-- The nodes below a node of a tree are nodes of the tree. -/
theorem mem_preorder_trans {t n c : SyntaxTree} (hn : n ∈ t.preorder) (hc : c ∈ n.preorder) :
    c ∈ t.preorder := by
  rcases mem_preorder_iff.mp hn with rfl | ⟨child, hchild, hn⟩
  · exact hc
  · exact mem_preorder_iff.mpr (Or.inr ⟨child, hchild, mem_preorder_trans hn hc⟩)
termination_by sizeOf t
decreasing_by
  cases t with
  | node k s e cs =>
    have := List.sizeOf_lt_of_mem hchild
    simp only [children, node.sizeOf_spec] at this ⊢
    omega

end SyntaxTree

namespace NoneComparison

namespace Respelling

variable (ρ : Respelling)

/-- What starts an operand behind an operator does so afterwards, and so does the operator
respelled. -/
theorem startsOperand_recast {ts : List Token}
    (h : ∀ next ∈ ts.find? (!·.isFiller), next.StartsOperand) :
    ∀ next ∈ (ts.flatMap ρ.recast).find? (!·.isFiller), next.StartsOperand := by
  induction ts with
  | nil => exact h
  | cons t ts ih =>
    rw [List.flatMap_cons]
    by_cases ht : t = ρ.operator
    · obtain ⟨more, hmore⟩ : ∃ more, ρ.recast t =
          ⟨.name, "is".toList, ρ.move ρ.place, more⟩ :: (ρ.recast t).tail := by
        rw [ht, recast_operator, tokens]
        split
        next => exact ⟨_, rfl⟩
        next => exact ⟨_, rfl⟩
      intro next hnext
      rw [hmore] at hnext
      cases hnext
      have hne : "is".toList ≠ "not".toList := by decide
      exact ⟨fun hclosing => (by cases hclosing), fun hnot => hne hnot.2⟩
    · rw [ρ.recast_of_ne ht, List.singleton_append]
      intro next hnext
      cases hfiller : t.isFiller with
      | true =>
        refine ih (fun x hx => h x (by simpa [hfiller] using hx)) next ?_
        have hmoved : (ρ.moved t).isFiller = true := hfiller
        simpa [hmoved] using hnext
      | false =>
        have hmoved : (ρ.moved t).isFiller = false := hfiller
        have hown : t.StartsOperand := h t (by simp [hfiller])
        rw [List.find?_cons_of_pos (by simp [hmoved])] at hnext
        cases hnext
        exact hown

theorem followed_recast {ts : List Token} (h : Token.Followed ts) :
    Token.Followed (ts.flatMap ρ.recast) := by
  induction ts with
  | nil => trivial
  | cons t ts ih =>
    obtain ⟨hnext, hrest⟩ := h
    rw [List.flatMap_cons]
    by_cases ht : t = ρ.operator
    · have hnames : ∀ t' ∈ ρ.recast t, t'.kind ≠ .operator := by
        intro t' ht'
        rw [ht, recast_operator] at ht'
        rw [ρ.kind_of_mem_tokens ht']
        exact nofun
      generalize ρ.recast t = more at hnames
      induction more with
      | nil => exact ih hrest
      | cons x more ihmore =>
        obtain ⟨hx, hmore⟩ := List.forall_mem_cons.mp hnames
        exact ⟨fun hkind => absurd hkind hx, ihmore hmore⟩
    · rw [ρ.recast_of_ne ht, List.singleton_append]
      exact ⟨fun hkind hsome => ρ.startsOperand_recast (hnext hkind hsome), ih hrest⟩

end Respelling

theorem start_le_stop_of_mem {text : Text} {t : Token} (h : t ∈ Token.ofText text) :
    t.start + Text.byteSize t.text = t.stop := by
  have := (Token.spans_of_mem h).stop_eq
  omega

/-- Two tokens of a text do not overlap. -/
theorem apart_of_mem {text : Text} {t operator : Token} (ht : t ∈ Token.ofText text)
    (hmem : operator ∈ Token.ofText text) :
    t = operator ∨ t.stop ≤ operator.start ∨ operator.stop ≤ t.start := by
  have apart : (Token.ofText text).Pairwise fun a b => a.stop ≤ b.start ∨ b.stop ≤ a.start :=
    (Token.ofText_ascending text).imp Or.inl
  have : Std.Symm fun a b : Token => a.stop ≤ b.start ∨ b.stop ≤ a.start := ⟨fun _ _ => Or.symm⟩
  by_cases heq : t = operator
  · exact Or.inl heq
  · exact Or.inr (apart.forall ht hmem heq)

section InPlace

variable {place : Nat} {own : Text} (fits : (identityFor? own).isSome) {u r : Text}

/-- Where an equality operator has a space on both sides, the tokens before it stay, and those after
it move, when it is respelled. -/
theorem exists_ofText_inPlace (hplace : place = Text.byteSize (u ++ [' ']))
    (h : ⟨.operator, own, place, place + 2⟩ ∈ Token.ofText (u ++ ' ' :: (own ++ ' ' :: r))) :
    ∃ early late,
      Token.ofText (u ++ ' ' :: (own ++ ' ' :: r)) =
        early ++ ⟨.operator, own, place, place + 2⟩ :: late ∧
      Token.ofText (u ++ ' ' :: ((Respelling.inPlace place fits).word ++ ' ' :: r)) =
        early ++ (Respelling.inPlace place fits).tokens ++ late.map (Token.moved (growth own)) := by
  have hs : Token.StartsOperator (own ++ ' ' :: r) := by
    rcases eq_of_fits fits with rfl | rfl
    · exact ⟨'=', rfl, Or.inl rfl⟩
    · exact ⟨'!', rfl, Or.inr (Or.inl rfl)⟩
  obtain ⟨early, inner, hinner, hmem, hscan⟩ := Token.scan_cut (List.forall_mem_nil _) hs h
    (by rw [Nat.zero_add, hplace])
  rw [Nat.zero_add, ← hplace] at hmem hscan
  have hadd := fun n => @Token.scan_add inner 0 (place + 2) n (' ' :: r)
  have hmove : (Respelling.inPlace place fits).move (place + 2) = place + 2 + growth own :=
    move_of_lt fits (by omega)
  have hstay : (Respelling.inPlace place fits).move place = place :=
    move_of_le fits (Nat.le_refl place)
  refine ⟨early, Token.scan inner 0 (place + 2) (' ' :: r), ?_⟩
  unfold Token.ofText
  rw [hscan, hscan, ← hadd]
  rcases cases_inPlace place fits with ⟨rfl, hword⟩ | ⟨rfl, hword⟩
  · have hcode : Token.InCode inner := Token.inCode_of_operator (Token.find_of_mem_scan hmem rfl)
    have hgrowth : growth "==".toList = 0 := by decide
    have htokens : (Respelling.inPlace place fits).tokens =
        [⟨.name, "is".toList, (Respelling.inPlace place fits).move place,
          (Respelling.inPlace place fits).move (place + 2)⟩] := if_pos rfl
    rw [hword, htokens, hmove, hstay, hgrowth, Token.scan_equal hcode, Token.scan_is hcode]
    simp
  · have hcode : Token.InCode inner := Token.inCode_of_operator (Token.find_of_mem_scan hmem rfl)
    have hgrowth : growth "!=".toList = 4 := by decide
    have hne : ¬"!=".toList = "==".toList := by decide
    have htokens : (Respelling.inPlace place fits).tokens =
        [⟨.name, "is".toList, (Respelling.inPlace place fits).move place,
            (Respelling.inPlace place fits).move place + 2⟩,
          ⟨.name, "not".toList, (Respelling.inPlace place fits).move place + 3,
            (Respelling.inPlace place fits).move (place + 2)⟩] := if_neg hne
    rw [hword, htokens, hmove, hstay, hgrowth, Token.scan_unequal hcode,
      Token.scan_is_not hcode hinner]
    simp

/-- Tokens before the operator stay. -/
theorem flatMap_recast_of_le {ts : List Token} (h : ∀ t ∈ ts, t.start ≤ place ∧ t.stop ≤ place) :
    ts.flatMap (Respelling.inPlace place fits).recast = ts := by
  have hone : ∀ t ∈ ts, (Respelling.inPlace place fits).recast t = [t] := by
    intro t ht
    obtain ⟨hstart, hstop⟩ := h t ht
    have hne : t ≠ (Respelling.inPlace place fits).operator := by
      rintro rfl
      change place + 2 ≤ place at hstop
      omega
    rw [Respelling.recast_of_ne _ hne, Respelling.moved, move_of_le fits hstop,
      move_of_le fits hstart]
  rw [List.flatMap_congr hone, List.flatMap_singleton']

/-- Tokens behind the operator move. -/
theorem flatMap_recast_of_lt {ts : List Token} (h : ∀ t ∈ ts, place < t.start ∧ place < t.stop) :
    ts.flatMap (Respelling.inPlace place fits).recast = ts.map (Token.moved (growth own)) := by
  have hone : ∀ t ∈ ts, (Respelling.inPlace place fits).recast t =
      [Token.moved (growth own) t] := by
    intro t ht
    obtain ⟨hstart, hstop⟩ := h t ht
    have hne : t ≠ (Respelling.inPlace place fits).operator := by
      rintro rfl
      exact Nat.lt_irrefl place hstart
    rw [Respelling.recast_of_ne _ hne, Respelling.moved, move_of_lt fits hstart,
      move_of_lt fits hstop]
    rfl
  rw [List.flatMap_congr hone, List.map_eq_flatMap]

/-- The tokens of the text in which the operator is respelled are those of the text, recast. -/
theorem ofText_inPlace (hplace : place = Text.byteSize (u ++ [' ']))
    (h : ⟨.operator, own, place, place + 2⟩ ∈ Token.ofText (u ++ ' ' :: (own ++ ' ' :: r))) :
    Token.ofText (u ++ ' ' :: ((Respelling.inPlace place fits).word ++ ' ' :: r)) =
      (Token.ofText (u ++ ' ' :: (own ++ ' ' :: r))).flatMap
        (Respelling.inPlace place fits).recast := by
  obtain ⟨early, late, hold, hnew⟩ := exists_ofText_inPlace fits hplace h
  have hascending := Token.ofText_ascending (u ++ ' ' :: (own ++ ' ' :: r))
  rw [hold] at hascending
  obtain ⟨-, hafter, hbefore⟩ := List.pairwise_append.mp hascending
  have hle : ∀ t ∈ early ++ ⟨.operator, own, place, place + 2⟩ :: late, t.start ≤ t.stop := by
    intro t ht
    rw [← hold] at ht
    have := start_le_stop_of_mem ht
    omega
  have hearly : ∀ t ∈ early, t.start ≤ place ∧ t.stop ≤ place := by
    intro t ht
    have hstop : t.stop ≤ place := hbefore t ht _ List.mem_cons_self
    exact ⟨(hle t (List.mem_append_left _ ht)).trans hstop, hstop⟩
  have hlate : ∀ t ∈ late, place < t.start ∧ place < t.stop := by
    intro t ht
    have hstart : place + 2 ≤ t.start := (List.pairwise_cons.mp hafter).1 t ht
    have hstop := hle t (List.mem_append_right _ (List.mem_cons_of_mem _ ht))
    omega
  have hoperator : (Respelling.inPlace place fits).recast ⟨.operator, own, place, place + 2⟩ =
      (Respelling.inPlace place fits).tokens := Respelling.recast_operator _
  rw [hold, hnew, List.flatMap_append, List.flatMap_cons, flatMap_recast_of_le fits hearly,
    flatMap_recast_of_lt fits hlate, hoperator, List.append_assoc]

theorem byteSize_inPlace (hplace : place = Text.byteSize (u ++ [' '])) :
    (Respelling.inPlace place fits).move (Text.byteSize (u ++ ' ' :: (own ++ ' ' :: r))) =
      Text.byteSize (u ++ ' ' :: ((Respelling.inPlace place fits).word ++ ' ' :: r)) := by
  have hown := byteSize_of_fits fits
  have hword := byteSize_word place fits
  have hsplit (part : Text) : Text.byteSize (u ++ ' ' :: (part ++ ' ' :: r)) =
      Text.byteSize (u ++ [' ']) + (Text.byteSize part + Text.byteSize (' ' :: r)) := by
    rw [← Text.byteSize_append, ← Text.byteSize_append]
    simp
  rw [hsplit, hsplit, move_of_lt fits (by omega), hown, hword]
  omega

/-- The tree of the text in which the operator is respelled is the tree of the text, afterwards. -/
theorem tree_inPlace (hplace : place = Text.byteSize (u ++ [' ']))
    (h : ⟨.operator, own, place, place + 2⟩ ∈ Token.ofText (u ++ ' ' :: (own ++ ' ' :: r)))
    (followed : Token.Followed (Token.ofText (u ++ ' ' :: (own ++ ' ' :: r)))) :
    SyntaxTree.ofText (u ++ ' ' :: ((Respelling.inPlace place fits).word ++ ' ' :: r)) =
      (Respelling.inPlace place fits).tree
        (SyntaxTree.ofText (u ++ ' ' :: (own ++ ' ' :: r))) := by
  rw [Respelling.ofText_eq_treeOf, Respelling.ofText_eq_treeOf, ofText_inPlace fits hplace h,
    ← byteSize_inPlace fits hplace]
  refine Respelling.treeOf_recast _ (fun t ht _ hstart hsome => ?_) followed
    (move_of_le fits (Nat.zero_le place))
  change t.start = place at hstart
  have hsize := byteSize_of_fits hsome
  have hstop := start_le_stop_of_mem ht
  have happart := apart_of_mem ht h
  dsimp only at happart
  rcases happart with heq | hbefore | hbehind
  · exact heq
  · omega
  · omega

end InPlace

/-- No node of the tree starts within an operator. -/
theorem start_ne_of_mem_preorder {text : Text} {operator : Token}
    (hmem : operator ∈ Token.ofText text) (hstop : operator.stop = operator.start + 2)
    (followed : Token.Followed (Token.ofText text)) {n : SyntaxTree}
    (hn : n ∈ (SyntaxTree.ofText text).preorder) : n.start ≠ operator.start + 1 := by
  have hstop_le := (Token.spans_of_mem hmem).stop_le
  -- Such a node would change if its offset were another, but no token has that offset.
  let ρ : Respelling :=
    { place := operator.start + 1, own := "==".toList, fits := rfl
      move := fun s => if s = operator.start + 1 then 0 else s }
  have hoffsets : ∀ t ∈ Token.ofText text,
      t.start ≠ operator.start + 1 ∧ t.stop ≠ operator.start + 1 := by
    intro t ht
    have hle := start_le_stop_of_mem ht
    rcases apart_of_mem ht hmem with rfl | hbefore | hbehind
    · omega
    · omega
    · omega
  have hzero : ρ.move 0 = 0 := by
    change (if 0 = operator.start + 1 then 0 else 0) = 0
    exact ite_self 0
  have hlarge : Text.byteSize text ≠ operator.start + 1 := by omega
  have hsize : ρ.move (Text.byteSize text) = Text.byteSize text := if_neg hlarge
  have hself : ρ.tree n = n :=
    ρ.tree_eq_self (fun t ht => Or.inl (hoffsets t ht).1)
      (fun t ht => ⟨if_neg (hoffsets t ht).1, if_neg (hoffsets t ht).2⟩) followed hzero hsize n hn
  intro hstart
  have hmoved := ρ.tree_start n
  have hnone : ρ.move n.start.toNat = 0 := if_pos (by omega)
  rw [hself, hnone] at hmoved
  omega

/-- The equality operators of a tree are tokens of its text. -/
theorem exists_token_of_mem_preorder {text : Text}
    (followed : Token.Followed (Token.ofText text)) {n : SyntaxTree}
    (hn : n ∈ (SyntaxTree.ofText text).preorder) (hstart : 0 ≤ n.start)
    (hsome : (identityFor? n.kind).isSome) :
    ∃ t ∈ Token.ofText text, t.kind = .operator ∧ (t.start : Int) = n.start ∧
      (identityFor? t.text).isSome := by
  by_contra hnone
  -- Without such a token the node would stay as it is when it is respelled.
  let ρ : Respelling := { place := n.start.toNat, own := n.kind, fits := hsome, move := id }
  have habsent : ∀ t ∈ Token.ofText text,
      t.start ≠ ρ.place ∨ t.kind ≠ .operator ∨ identityFor? t.text = none := by
    intro t ht
    by_contra hall
    simp only [not_or, not_not] at hall
    obtain ⟨hplace, hkind, htext⟩ := hall
    refine hnone ⟨t, ht, hkind, ?_, Option.isSome_iff_ne_none.mpr htext⟩
    rw [hplace]
    exact Int.toNat_of_nonneg hstart
  have hself : ρ.tree n = n :=
    ρ.tree_eq_self habsent (fun _ _ => ⟨rfl, rfl⟩) followed rfl rfl n hn
  have hkind := ρ.tree_kind n
  have hoperator := (ρ.identityFor?_kindAt n.start n.kind).mp (by rw [← hkind, hself]; exact hsome)
  exact hoperator.2 (Int.toNat_of_nonneg hstart).symm

theorem chains_tree (ρ : Respelling) (t : SyntaxTree) :
    chains (ρ.tree t) = (chains t).map ρ.tree := by
  have hflat : SyntaxTree.flat ∘ ρ.tree = ρ.tree ∘ SyntaxTree.flat := funext ρ.tree_flat
  rw [chains, ρ.nodes_tree, List.map_map, hflat, ← List.map_map, chains]

section Reads

variable {text : Text} (followed : Token.Followed (Token.ofText text))
include followed

/-- The operators of chains are tokens. -/
theorem token_of_mem_operators {n op : SyntaxTree} (hn : n ∈ chains (.ofText text))
    (hop : op ∈ operators n) :
    ∃ start : Nat, op.start = start ∧ op.stop = start + 2 ∧
      ⟨.operator, op.kind, start, start + 2⟩ ∈ Token.ofText text := by
  obtain ⟨n, hnode, rfl⟩ := List.mem_map.mp hn
  obtain ⟨hmem, hkind⟩ := SyntaxTree.mem_nodes_iff.mp hnode
  obtain ⟨hchild, hidentity⟩ := List.mem_filter.mp hop
  obtain ⟨c, hc, rfl⟩ := List.mem_map.mp hchild
  have hspans := (sound_ofText text n hmem hkind).2 c hc hidentity
  have hbelow : c ∈ (SyntaxTree.ofText text).preorder :=
    SyntaxTree.mem_preorder_trans hmem (SyntaxTree.mem_preorder_iff.mpr
      (Or.inr ⟨c, hc, SyntaxTree.mem_preorder_iff.mpr (Or.inl rfl)⟩))
  have hstart : 0 ≤ c.start := by
    obtain ⟨before, after, -, hstart, -⟩ := hspans
    omega
  obtain ⟨⟨kind, own, first, last⟩, ht, rfl, hfirst, hown⟩ :=
    exists_token_of_mem_preorder followed hbelow hstart hidentity
  have htoken := Token.spans_of_mem ht
  have hlast := htoken.stop_eq
  have hstop := hspans.stop_eq
  have hsize := byteSize_of_fits hown
  have hsize' := byteSize_of_fits hidentity
  dsimp only at hfirst htoken hlast hsize
  change c.stop = c.start + Text.byteSize c.leaf.kind at hstop
  obtain rfl : last = first + 2 := by omega
  have hsame : own = c.kind := by
    rw [hfirst, show ((first + 2 : Nat) : Int) = c.stop by omega] at htoken
    exact htoken.unique hspans
  refine ⟨first, hfirst.symm, ?_, hsame ▸ ht⟩
  change c.stop = _
  omega

theorem chainsIn_ofText : ChainsIn text (.ofText text) where
  holds := fun n hn hkind => (sound_ofText text n hn hkind).1.holdsOperators
  spelled := fun n hn hkind => (sound_ofText text n hn hkind).2
  outside := by
    intro n hn m hm op hop
    obtain ⟨start, hstart, hstop, htoken⟩ := token_of_mem_operators followed hm hop
    obtain ⟨n, hnode, rfl⟩ := List.mem_map.mp hn
    have hne := start_ne_of_mem_preorder htoken rfl followed
      (SyntaxTree.mem_nodes_iff.mp hnode).1
    change n.start ≤ op.start ∨ op.stop ≤ n.start
    dsimp only at hne
    omega

end Reads

open scoped Comparison

/-- The parser that knows the chains of Python reads them as its grammar has them, where every
equality operator is followed by what can start an operand. -/
theorem readsChains : ReadsChains fun text => Token.Followed (Token.ofText text) where
  reads := fun followed => ⟨_, rfl, chainsIn_ofText followed⟩
  respells := by
    intro u own r place t fits followed parsed hplace operator
    cases Except.ok.inj parsed
    obtain ⟨n, hn, op, hop, rfl, hstart⟩ := operator
    obtain ⟨start, hfirst, -, htoken⟩ := token_of_mem_operators followed hn hop
    obtain rfl : start = place := by omega
    refine ⟨?_, fun t' parsed' => ?_⟩
    · rw [ofText_inPlace fits hplace htoken]
      exact Respelling.followed_recast _ followed
    · cases Except.ok.inj parsed'
      rw [tree_inPlace fits hplace htoken followed, chains_tree]

end NoneComparison

end StyleRules
