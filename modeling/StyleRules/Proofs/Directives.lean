import StyleRules.Proofs.Declarations

namespace StyleRules

namespace Directive

/-- What a directive starts with, up to its modifier, and the rest. -/
def opened? (d : Dialect) (text : Text) : Option (Modifier × Text) :=
  (after? d.lineComment text).bind fun rest =>
    (after? (Dialect.directivePrefix ++ ":disable".toList) (rest.dropWhile Text.isBlank)).map
      readModifier

/-- The identifiers at the start of a text, and the rest. -/
def rulesOf (text : Text) : List Text × Text := readRules (text.length + 1) text

theorem after?_append (piece text : Text) : after? piece (piece ++ text) = some text := by
  simp [after?, Text.startsWith_append]

theorem after?_append_of_foreign {piece after : Text} (text : Text) (h : Text.Foreign piece after) :
    after? piece (text ++ after) = (after? piece text).map (· ++ after) := by
  unfold after?
  rw [Text.startsWith_append_of_foreign text h]
  split
  next hs =>
    have hlen := (List.isPrefixOf_iff_prefix.mp hs).length_le
    rw [List.drop_append_of_le_length hlen]
    rfl
  next => rfl

theorem readModifier_append {after : Text} (text : Text)
    (h : ∀ m : Modifier, Text.Foreign (':' :: m.name) after) :
    readModifier (text ++ after) = ((readModifier text).1, (readModifier text).2 ++ after) := by
  unfold readModifier
  simp only [List.findSome?_cons, List.findSome?_nil, after?_append_of_foreign text (h _)]
  cases after? (':' :: Modifier.next.name) text with
  | some rest => rfl
  | none =>
    cases after? (':' :: Modifier.this.name) text with
    | some rest => rfl
    | none =>
      cases after? (':' :: Modifier.previous.name) text with
      | some rest => rfl
      | none => rfl

/-- A text that nothing before the identifiers of a directive reaches into. -/
structure Inert (d : Dialect) (after : Text) : Prop where
  lineComment : Text.Foreign d.lineComment after
  keyword : Text.Foreign (Dialect.directivePrefix ++ ":disable".toList) after
  modifier : ∀ m : Modifier, Text.Foreign (':' :: m.name) after
  blank : ∀ c ∈ after.head?, Text.isBlank c = false
  space : ∀ c ∈ after.head?, Text.isSpaceOrTab c = false
  comma : ∀ c ∈ after.head?, c ≠ ','

theorem opened?_append {d : Dialect} {after : Text} (h : Inert d after) (text : Text) :
    opened? d (text ++ after) =
      (opened? d text).map fun found => (found.1, found.2 ++ after) := by
  unfold opened?
  rw [after?_append_of_foreign text h.lineComment]
  cases after? d.lineComment text with
  | none => rfl
  | some rest =>
    simp only [Option.map_some, Option.bind_some]
    rw [Text.dropWhile_append_of_head rest h.blank, after?_append_of_foreign _ h.keyword]
    cases after? (Dialect.directivePrefix ++ ":disable".toList) (rest.dropWhile Text.isBlank) with
    | none => rfl
    | some rest =>
      simp only [Option.map_some]
      rw [readModifier_append rest h.modifier]

theorem after?_suffix {piece text rest : Text} (h : after? piece text = some rest) :
    rest <:+ text := by
  unfold after? at h
  split at h
  next =>
    cases Option.some.inj h
    exact List.drop_suffix _ _
  next => cases h

theorem readModifier_suffix (text : Text) : (readModifier text).2 <:+ text := by
  have hfound : ∀ found, [Modifier.next, .this, .previous].findSome? (fun m =>
      (after? (':' :: m.name) text).map fun rest => (m, rest)) = some found → found.2 <:+ text := by
    intro found h
    obtain ⟨m, -, hm⟩ := List.exists_of_findSome?_eq_some h
    obtain ⟨rest, hrest, rfl⟩ := Option.map_eq_some_iff.mp hm
    exact after?_suffix hrest
  unfold readModifier
  dsimp only
  cases h : [Modifier.next, .this, .previous].findSome? fun m =>
      (after? (':' :: m.name) text).map fun rest => (m, rest) with
  | none => exact List.suffix_refl text
  | some found => exact hfound found h

theorem opened?_suffix {d : Dialect} {text rest : Text} {m : Modifier}
    (h : opened? d text = some (m, rest)) : rest <:+ text := by
  obtain ⟨first, hfirst, h⟩ := Option.bind_eq_some_iff.mp h
  obtain ⟨second, hsecond, hm⟩ := Option.map_eq_some_iff.mp h
  have hmodifier := readModifier_suffix second
  rw [hm] at hmodifier
  exact hmodifier.trans ((after?_suffix hsecond).trans
    ((List.dropWhile_suffix _).trans (after?_suffix hfirst)))

theorem afterSeparator_suffix (text : Text) : afterSeparator text <:+ text := by
  unfold afterSeparator
  dsimp only
  split
  next rest h =>
    have hs : ',' :: rest <:+ text := h ▸ List.dropWhile_suffix _
    exact (List.dropWhile_suffix _).trans ((List.suffix_cons ',' rest).trans hs)
  next => exact List.dropWhile_suffix _

theorem afterSeparator_append {after : Text} (text : Text)
    (hspace : ∀ c ∈ after.head?, Text.isSpaceOrTab c = false)
    (hcomma : ∀ c ∈ after.head?, c ≠ ',') :
    afterSeparator (text ++ after) = afterSeparator text ++ after := by
  unfold afterSeparator
  rw [Text.dropWhile_append_of_head text hspace]
  cases text.dropWhile Text.isSpaceOrTab with
  | nil =>
    cases after with
    | nil => rfl
    | cons c rest =>
      have hc := hcomma c rfl
      simp only [List.nil_append]
      split
      next heq => exact absurd (List.cons.inj heq).1 hc
      next => rfl
  | cons c rest =>
    by_cases hc : c = ','
    · subst hc
      exact Text.dropWhile_append_of_head rest hspace
    · simp only [List.cons_append]
      split
      next heq => exact absurd (List.cons.inj heq).1 hc
      next =>
        split
        next heq => exact absurd (List.cons.inj heq).1 hc
        next => rfl

/-- Behind a word there is less to read. -/
theorem length_afterSeparator_lt {text : Text} (h : text.takeWhile Text.isWordChar ≠ []) :
    (afterSeparator (text.dropWhile Text.isWordChar)).length < text.length := by
  have hsplit := congrArg List.length
    (List.takeWhile_append_dropWhile (p := Text.isWordChar) (l := text))
  have hword := List.length_pos_iff.mpr h
  have hsep := (afterSeparator_suffix (text.dropWhile Text.isWordChar)).length_le
  rw [List.length_append] at hsplit
  omega

/-- More fuel than the text is long reads no more. -/
theorem readRules_fuel {fuel more : Nat} {text : Text} (h : text.length < fuel)
    (h' : text.length < more) : readRules fuel text = readRules more text := by
  induction fuel generalizing more text with
  | zero => omega
  | succ fuel ih =>
    cases more with
    | zero => omega
    | succ more =>
      unfold readRules
      cases hw : text.takeWhile Text.isWordChar with
      | nil => rfl
      | cons c word =>
        have hlt := length_afterSeparator_lt (show text.takeWhile Text.isWordChar ≠ [] by simp [hw])
        dsimp only
        rw [@ih more (afterSeparator (text.dropWhile Text.isWordChar)) (by omega) (by omega)]

theorem rulesOf_of_no_word {text : Text} (h : text.takeWhile Text.isWordChar = []) :
    rulesOf text = ([], text) := by
  rw [rulesOf, readRules, h]

theorem rulesOf_of_word {text : Text} (h : text.takeWhile Text.isWordChar ≠ []) :
    rulesOf text =
      if (rulesOf (afterSeparator (text.dropWhile Text.isWordChar))).1 = [] then
        ([text.takeWhile Text.isWordChar], text.dropWhile Text.isWordChar)
      else
        (text.takeWhile Text.isWordChar ::
            (rulesOf (afterSeparator (text.dropWhile Text.isWordChar))).1,
          (rulesOf (afterSeparator (text.dropWhile Text.isWordChar))).2) := by
  have hfuel := readRules_fuel (length_afterSeparator_lt h) (Nat.lt_succ_self _)
  unfold rulesOf
  rw [← hfuel, readRules]
  split
  next hw => exact absurd hw h
  next => rfl

theorem rulesOf_fst_ne_nil {text : Text} (h : text.takeWhile Text.isWordChar ≠ []) :
    (rulesOf text).1 ≠ [] := by
  rw [rulesOf_of_word h]
  split
  · simp
  · simp

theorem length_rulesOf_le (text : Text) : (rulesOf text).2.length ≤ text.length := by
  induction hn : text.length using Nat.strong_induction_on generalizing text with
  | _ n ih =>
    by_cases hw : text.takeWhile Text.isWordChar = []
    · rw [rulesOf_of_no_word hw, hn]
    · have hlt := length_afterSeparator_lt hw
      have hdrop := (List.dropWhile_suffix (l := text) Text.isWordChar).length_le
      rw [rulesOf_of_word hw]
      split
      · dsimp only
        omega
      · have := ih _ (by omega) (afterSeparator (text.dropWhile Text.isWordChar)) rfl
        dsimp only
        omega

/-- The identifiers behind "weak" are the word and those that follow it. -/
theorem rulesOf_weak {after : Text} (h : WeakDelegate.StartsWord after) :
    rulesOf ("weak ".toList ++ after) =
      ("weak".toList :: (rulesOf after).1, (rulesOf after).2) := by
  have hword : ("weak ".toList ++ after).takeWhile Text.isWordChar = "weak".toList := by
    show (['w', 'e', 'a', 'k'] ++ ' ' :: after).takeWhile Text.isWordChar = ['w', 'e', 'a', 'k']
    rw [Text.takeWhile_append_of_head _ (by simp; decide)]
    decide
  have hrest : ("weak ".toList ++ after).dropWhile Text.isWordChar = ' ' :: after := by
    show (['w', 'e', 'a', 'k'] ++ ' ' :: after).dropWhile Text.isWordChar = ' ' :: after
    rw [Text.dropWhile_append_of_head _ (by simp; decide)]
    rfl
  have hspace : ∀ c ∈ after.head?, Text.isSpaceOrTab c = false := h.head (by decide) (by decide)
  have hsep : afterSeparator (' ' :: after) = after :=
    afterSeparator_append [' '] hspace h.ne_comma
  rw [rulesOf_of_word (by rw [hword]; decide), hword, hrest, hsep,
    if_neg (rulesOf_fst_ne_nil h.takeWhile_ne_nil)]

/-- A word that ends before what follows is read, and reading goes on behind it. -/
theorem rulesOf_append {before after : Text} (hb : Text.AtBoundary before)
    (hw : before.takeWhile Text.isWordChar ≠ []) (ha : WeakDelegate.StartsWord after) :
    rulesOf (before ++ after) =
      if (rulesOf (afterSeparator (before.dropWhile Text.isWordChar) ++ after)).1 = [] then
        ([before.takeWhile Text.isWordChar], before.dropWhile Text.isWordChar ++ after)
      else
        (before.takeWhile Text.isWordChar ::
            (rulesOf (afterSeparator (before.dropWhile Text.isWordChar) ++ after)).1,
          (rulesOf (afterSeparator (before.dropWhile Text.isWordChar) ++ after)).2) := by
  have hnil : before ≠ [] := by
    rintro rfl
    exact hw rfl
  have hspace : ∀ c ∈ after.head?, Text.isSpaceOrTab c = false := ha.head (by decide) (by decide)
  obtain ⟨htake, hdrop, -⟩ := Text.takeWhile_append_of_exists after (hb.exists_not_word hnil)
  rw [rulesOf_of_word (by rw [htake]; exact hw), htake, hdrop,
    afterSeparator_append _ hspace ha.ne_comma]

/-- Putting "weak" into a text that identifiers are read from either leaves them as they are, or
adds the word to them, and the rest is the same. -/
theorem rulesOf_cut {before after : Text} (hb : Text.AtBoundary before)
    (ha : WeakDelegate.StartsWord after) :
    (∃ rules left, rulesOf (before ++ after) = (rules, left ++ after) ∧
      rulesOf (before ++ ("weak ".toList ++ after)) = (rules, left ++ ("weak ".toList ++ after))) ∨
    ∃ early late left, late ≠ [] ∧ left.length ≤ after.length ∧
      rulesOf (before ++ after) = (early ++ late, left) ∧
      rulesOf (before ++ ("weak ".toList ++ after)) = (early ++ "weak".toList :: late, left) := by
  have hm : WeakDelegate.StartsWord ("weak ".toList ++ after) := ⟨'w', _, rfl, Or.inr rfl⟩
  induction hn : before.length using Nat.strong_induction_on generalizing before with
  | _ n ih =>
    by_cases hw : before.takeWhile Text.isWordChar = []
    · by_cases hnil : before = []
      · subst hnil
        exact Or.inr ⟨[], (rulesOf after).1, (rulesOf after).2,
          rulesOf_fst_ne_nil ha.takeWhile_ne_nil, length_rulesOf_le after, rfl, rulesOf_weak ha⟩
      · have hexists := hb.exists_not_word hnil
        obtain ⟨htake, -⟩ := Text.takeWhile_append_of_exists after hexists
        obtain ⟨htake', -⟩ := Text.takeWhile_append_of_exists ("weak ".toList ++ after) hexists
        left
        exact ⟨[], before, rulesOf_of_no_word (by rw [htake, hw]),
          rulesOf_of_no_word (by rw [htake', hw])⟩
    · have hlt := length_afterSeparator_lt hw
      have hsep : Text.AtBoundary (afterSeparator (before.dropWhile Text.isWordChar)) :=
        hb.of_suffix ((afterSeparator_suffix _).trans (List.dropWhile_suffix _))
      rw [rulesOf_append hb hw ha, rulesOf_append hb hw hm]
      rcases ih _ (by omega) hsep rfl with ⟨rules, left, hold, hnew⟩ |
        ⟨early, late, left, hne, hlen, hold, hnew⟩
      · left
        rw [hold, hnew]
        by_cases hrules : rules = []
        · exact ⟨[before.takeWhile Text.isWordChar], before.dropWhile Text.isWordChar,
            by rw [if_pos hrules], by rw [if_pos hrules]⟩
        · exact ⟨before.takeWhile Text.isWordChar :: rules, left, by rw [if_neg hrules],
            by rw [if_neg hrules]⟩
      · right
        rw [hold, hnew]
        refine ⟨before.takeWhile Text.isWordChar :: early, late, left, hne, hlen, ?_, ?_⟩
        · rw [if_neg (by simp [hne])]
          rfl
        · rw [if_neg (by simp)]
          rfl

/-- A directive is what opens it and the identifiers behind at least one space or tab. -/
theorem read?_eq (d : Dialect) (text : Text) :
    read? d text = (opened? d text).bind fun found =>
      if found.2.takeWhile Text.isSpaceOrTab = [] ∨
          (rulesOf (found.2.dropWhile Text.isSpaceOrTab)).1 = [] then none
      else some (found.1, rulesOf (found.2.dropWhile Text.isSpaceOrTab)) := by
  unfold read? opened?
  cases after? d.lineComment text with
  | none => rfl
  | some rest =>
    rw [Option.bind_eq_bind, Option.bind_some, Option.bind_some]
    cases after? (Dialect.directivePrefix ++ ":disable".toList) (rest.dropWhile Text.isBlank) with
    | none => rfl
    | some rest =>
      have hfuel : readRules ((readModifier rest).2.length + 1)
          ((readModifier rest).2.dropWhile Text.isSpaceOrTab) =
          rulesOf ((readModifier rest).2.dropWhile Text.isSpaceOrTab) := by
        have hlen :=
          (List.dropWhile_suffix (l := (readModifier rest).2) Text.isSpaceOrTab).length_le
        exact readRules_fuel (by omega) (Nat.lt_succ_self _)
      rw [Option.map_some, Option.bind_some, Option.bind_eq_bind, Option.bind_some]
      dsimp only
      rw [hfuel]
      cases (readModifier rest).2.takeWhile Text.isSpaceOrTab with
      | nil => rfl
      | cons c space =>
        cases rulesOf ((readModifier rest).2.dropWhile Text.isSpaceOrTab) with
        | mk rules left =>
          cases rules with
          | nil => rfl
          | cons rule rules => rfl

theorem read?_of_opened {d : Dialect} {text rest : Text} {m : Modifier}
    (h : opened? d text = some (m, rest)) (hspace : rest.takeWhile Text.isSpaceOrTab ≠ []) :
    read? d text =
      if (rulesOf (rest.dropWhile Text.isSpaceOrTab)).1 = [] then none
      else some (m, rulesOf (rest.dropWhile Text.isSpaceOrTab)) := by
  rw [read?_eq, h, Option.bind_some]
  simp only [hspace, false_or]

/-- Putting "weak" into a text leaves a directive at its start as it is, or adds the word to its
identifiers; no directive comes or goes. -/
theorem read?_cut {d : Dialect} {before after : Text} (hb : Text.AtBoundary before)
    (ha : WeakDelegate.StartsWord after) (hold : Inert d after)
    (hnew : Inert d ("weak ".toList ++ after)) :
    (read? d (before ++ after) = none ∧
      read? d (before ++ ("weak ".toList ++ after)) = none) ∨
    (∃ m rules left, read? d (before ++ after) = some (m, rules, left ++ after) ∧
      read? d (before ++ ("weak ".toList ++ after)) =
        some (m, rules, left ++ ("weak ".toList ++ after))) ∨
    ∃ m early late left, left.length ≤ after.length ∧
      read? d (before ++ after) = some (m, early ++ late, left) ∧
      read? d (before ++ ("weak ".toList ++ after)) =
        some (m, early ++ "weak".toList :: late, left) := by
  have hopened := opened?_append hold before
  have hopened' := opened?_append hnew before
  cases ho : opened? d before with
  | none =>
    rw [ho] at hopened hopened'
    exact Or.inl ⟨by rw [read?_eq, hopened]; rfl, by rw [read?_eq, hopened']; rfl⟩
  | some found =>
    obtain ⟨m, rest⟩ := found
    rw [ho] at hopened hopened'
    have hrest : Text.AtBoundary (rest.dropWhile Text.isSpaceOrTab) :=
      hb.of_suffix ((List.dropWhile_suffix _).trans (opened?_suffix ho))
    have htake := Text.takeWhile_append_of_head rest hold.space
    have htake' := Text.takeWhile_append_of_head rest hnew.space
    have hdrop := Text.dropWhile_append_of_head rest hold.space
    have hdrop' := Text.dropWhile_append_of_head rest hnew.space
    by_cases hspace : rest.takeWhile Text.isSpaceOrTab = []
    · refine Or.inl ⟨?_, ?_⟩
      · rw [read?_eq, hopened, Option.map_some, Option.bind_some,
          if_pos (Or.inl (by rw [htake]; exact hspace))]
      · rw [read?_eq, hopened', Option.map_some, Option.bind_some,
          if_pos (Or.inl (by rw [htake']; exact hspace))]
    · rw [read?_of_opened hopened (by rw [htake]; exact hspace),
        read?_of_opened hopened' (by rw [htake']; exact hspace), hdrop, hdrop']
      rcases rulesOf_cut hrest ha with ⟨rules, left, h, h'⟩ |
        ⟨early, late, left, hne, hlen, h, h'⟩
      · rw [h, h']
        by_cases hrules : rules = []
        · exact Or.inl ⟨if_pos hrules, if_pos hrules⟩
        · exact Or.inr (Or.inl ⟨m, rules, left, if_neg hrules, if_neg hrules⟩)
      · rw [h, h']
        exact Or.inr (Or.inr ⟨m, early, late, left, hlen, if_neg (by simp [hne]),
          if_neg (by simp)⟩)

theorem mem_ofLineFrom {d : Dialect} {line skip character : Nat} {text : Text} {found : Directive}
    (h : found ∈ ofLineFrom d line skip character text) :
    found.line = line ∧ character ≤ found.character := by
  fun_induction ofLineFrom d line skip character text with
  | case1 => simp at h
  | case2 character c rest k ih =>
    have := ih h
    exact ⟨this.1, by omega⟩
  | case3 character c rest modifier rules left hread ih =>
    rcases List.mem_cons.mp h with rfl | h
    · exact ⟨rfl, Nat.le_refl _⟩
    · have := ih h
      exact ⟨this.1, by omega⟩
  | case4 character c rest hread ih =>
    have := ih h
    exact ⟨this.1, by omega⟩

/-- Moving a text along its line moves its directives. -/
theorem ofLineFrom_add (d : Dialect) (line skip character n : Nat) (text : Text) :
    ofLineFrom d line skip (character + n) text =
      (ofLineFrom d line skip character text).map fun found =>
        { found with character := found.character + n } := by
  fun_induction ofLineFrom d line skip character text with
  | case1 => rfl
  | case2 character c rest k ih => rw [ofLineFrom, ← ih, Nat.add_right_comm]
  | case3 character c rest modifier rules left hread ih =>
    rw [ofLineFrom, hread, List.map_cons, ← ih, Nat.add_right_comm]
  | case4 character c rest hread ih => rw [ofLineFrom, hread, ← ih, Nat.add_right_comm]

/-- What belongs to a directive already read is passed. -/
theorem ofLineFrom_passed (d : Dialect) (line skip character : Nat) (passed text : Text) :
    ofLineFrom d line (passed.length + skip) character (passed ++ text) =
      ofLineFrom d line skip (character + passed.length) text := by
  induction passed generalizing character with
  | nil => simp
  | cons c passed ih =>
    have hskip : (c :: passed).length + skip = (passed.length + skip) + 1 := by
      simp only [List.length_cons]; omega
    have hcharacter : character + (c :: passed).length = character + 1 + passed.length := by
      simp only [List.length_cons]; omega
    rw [hskip, List.cons_append, ofLineFrom, ih, hcharacter]

theorem mem_ofLines {d : Dialect} {line : Nat} {texts : List Text} {found : Directive}
    (h : found ∈ ofLines d line texts) :
    line ≤ found.line ∧ found.line < line + texts.length := by
  induction texts generalizing line with
  | nil => simp [ofLines] at h
  | cons text texts ih =>
    rw [List.length_cons]
    rcases List.mem_append.mp h with h | h
    · have := (mem_ofLineFrom h).1
      omega
    · have := ih h
      omega

theorem ofLines_append (d : Dialect) (line : Nat) (first second : List Text) :
    ofLines d line (first ++ second) =
      ofLines d line first ++ ofLines d (line + first.length) second := by
  induction first generalizing line with
  | nil => rfl
  | cons text first ih =>
    rw [List.cons_append, ofLines, ih, ofLines, List.append_assoc,
      List.length_cons, Nat.add_assoc, Nat.add_comm 1]

theorem inert_of_head {x : Char} {after : Text} (hx : x = 'v' ∨ x = 'w')
    (hprevious : Text.Foreign (':' :: Modifier.previous.name) (x :: after)) :
    Inert .swift (x :: after) := by
  have hforeign : ∀ needle : Text, 'v' ∉ needle → 'w' ∉ needle →
      Text.Foreign needle (x :: after) := fun needle hv hw =>
    Text.foreign_cons after (by rcases hx with rfl | rfl <;> assumption)
  refine ⟨hforeign _ (by decide) (by decide), hforeign _ (by decide) (by decide), ?_, ?_, ?_, ?_⟩
  · intro m
    cases m with
    | onward => exact hforeign _ (by decide) (by decide)
    | next => exact hforeign _ (by decide) (by decide)
    | this => exact hforeign _ (by decide) (by decide)
    | previous => exact hprevious
  · intro c hc
    cases Option.mem_some.mp hc
    rcases hx with rfl | rfl <;> decide
  · intro c hc
    cases Option.mem_some.mp hc
    rcases hx with rfl | rfl <;> decide
  · intro c hc
    cases Option.mem_some.mp hc
    rcases hx with rfl | rfl <;> decide

theorem inert_var (after : Text) : Inert .swift ('v' :: 'a' :: after) := by
  apply inert_of_head (Or.inl rfl)
  show Text.Foreign [':', 'p', 'r', 'e', 'v', 'i', 'o', 'u', 's'] _
  simp [Text.Foreign, Text.startsWith, List.isPrefixOf]

theorem inert_weak (after : Text) : Inert .swift ("weak ".toList ++ after) := by
  apply inert_of_head (Or.inr rfl)
  exact Text.foreign_cons _ (by decide)

/-- What a directive and the one read in its place have in common once "weak" stands at a cut of
their line. -/
structure Kept (cut : Nat) (d d' : Directive) : Prop where
  line : d'.line = d.line
  modifier : d'.modifier = d.modifier
  rules : ∀ rule, d.appliesTo rule = true → d'.appliesTo rule = true
  character : (d.character ≤ cut ∧ d'.character = d.character) ∨
    (cut < d.character ∧ d'.character = d.character + 5)

theorem ofLineFrom_weak (line character : Nat) (after : Text) :
    ofLineFrom .swift line 0 character ("weak ".toList ++ after) =
      ofLineFrom .swift line 0 (character + 5) after := by
  have hnone : ∀ (c : Char) (rest : Text), c ≠ '/' → read? .swift (c :: rest) = none := by
    intro c rest hc
    have hafter : after? Dialect.swift.lineComment (c :: rest) = none := by
      show (if Text.startsWith ['/', '/'] (c :: rest) then _ else none) = none
      simp [Text.startsWith, List.isPrefixOf, Ne.symm hc]
    rw [read?_eq, opened?, hafter]
    rfl
  show ofLineFrom .swift line 0 character ('w' :: 'e' :: 'a' :: 'k' :: ' ' :: after) = _
  simp [ofLineFrom, hnone]

theorem ofLineFrom_behind {cut line skip : Nat} {after : Text} {d : Directive}
    (h : d ∈ ofLineFrom .swift line skip (cut + 1) after) :
    ∃ d' ∈ ofLineFrom .swift line skip (cut + 1 + 5) after, Kept cut d d' := by
  have hcharacter := (mem_ofLineFrom h).2
  refine ⟨{ d with character := d.character + 5 }, ?_, rfl, rfl, fun _ hr => hr,
    Or.inr ⟨by omega, rfl⟩⟩
  rw [ofLineFrom_add]
  exact List.mem_map.mpr ⟨d, h, rfl⟩

/-- Behind a directive that reaches over the cut the same directives are read. -/
theorem ofLineFrom_over {cut line character left : Nat} {before after : Text} {d : Directive}
    (hcut : character + before.length = cut + 1) (hleft : left ≤ after.length)
    (h : d ∈ ofLineFrom .swift line ((before ++ after).length - left) character
      (before ++ after)) :
    ∃ d' ∈ ofLineFrom .swift line ((before ++ ("weak ".toList ++ after)).length - left) character
      (before ++ ("weak ".toList ++ after)), Kept cut d d' := by
  have hskip : (before ++ after).length - left = before.length + (after.length - left) := by
    rw [List.length_append]
    omega
  have hskip' : (before ++ ("weak ".toList ++ after)).length - left =
      (before ++ "weak ".toList).length + (after.length - left) := by
    simp only [List.length_append]
    omega
  have hfive : character + (before ++ "weak ".toList).length = cut + 1 + 5 := by
    rw [List.length_append, ← Nat.add_assoc, hcut]
    rfl
  rw [hskip, ofLineFrom_passed, hcut] at h
  rw [hskip', ← List.append_assoc, ofLineFrom_passed, hfive]
  exact ofLineFrom_behind h

theorem appliesTo_of_subset {d : Directive} {rules : List Text} (h : d.rules ⊆ rules) :
    ∀ rule, d.appliesTo rule = true → ({ d with rules } : Directive).appliesTo rule = true := by
  intro rule hr
  simp only [appliesTo, Bool.or_eq_true, decide_eq_true_eq] at hr ⊢
  exact hr.imp (fun hm => h hm) fun hm => h hm

/-- Every directive of a line is read again once "weak" is put into the line, with at least the
identifiers that it had. -/
theorem ofLineFrom_cut {cut line skip character : Nat} {before after : Text} {d : Directive}
    (hb : Text.AtBoundary before) (ha : WeakDelegate.StartsWord after)
    (hinert : Inert .swift after) (hcut : character + before.length = cut + 1)
    (hskip : skip ≤ before.length)
    (h : d ∈ ofLineFrom .swift line skip character (before ++ after)) :
    ∃ d' ∈ ofLineFrom .swift line skip character (before ++ ("weak ".toList ++ after)),
      Kept cut d d' := by
  induction before generalizing skip character with
  | nil =>
    have hzero : skip = 0 := by simpa using hskip
    have hcharacter : character = cut + 1 := by simpa using hcut
    subst hzero hcharacter
    rw [List.nil_append, ofLineFrom_weak]
    exact ofLineFrom_behind h
  | cons c before ih =>
    have hnext : character + 1 + before.length = cut + 1 := by
      simp only [List.length_cons] at hcut
      omega
    have hle : character ≤ cut := by omega
    rw [List.cons_append] at h ⊢
    cases skip with
    | succ k => exact ih hb.tail hnext (by simpa using hskip) h
    | zero =>
      simp only [ofLineFrom] at h ⊢
      -- Nothing is read here, or a directive that ends before the cut, or one that reaches over it.
      rcases read?_cut hb ha hinert (inert_weak after) with ⟨hold, hnew⟩ |
        ⟨m, rules, left, hold, hnew⟩ | ⟨m, early, late, left, hlen, hold, hnew⟩
      · rw [List.cons_append] at hold hnew
        rw [hold] at h
        rw [hnew]
        exact ih hb.tail hnext (Nat.zero_le _) h
      · rw [List.cons_append] at hold hnew
        rw [hold] at h
        rw [hnew]
        dsimp only at h ⊢
        have hlength : ∀ text : Text, (before ++ text).length - (left ++ text).length =
            before.length - left.length := by
          intro text
          rw [List.length_append, List.length_append, Nat.add_sub_add_right]
        rw [hlength] at h ⊢
        rcases List.mem_cons.mp h with rfl | h
        · exact ⟨_, List.mem_cons_self .., rfl, rfl, fun _ hr => hr, Or.inl ⟨hle, rfl⟩⟩
        · obtain ⟨d', hd', hkept⟩ := ih hb.tail hnext (Nat.sub_le _ _) h
          exact ⟨d', List.mem_cons_of_mem _ hd', hkept⟩
      · rw [List.cons_append] at hold hnew
        rw [hold] at h
        rw [hnew]
        dsimp only at h ⊢
        rcases List.mem_cons.mp h with rfl | h
        · refine ⟨_, List.mem_cons_self .., rfl, rfl, ?_, Or.inl ⟨hle, rfl⟩⟩
          apply appliesTo_of_subset
          intro rule hr
          rcases List.mem_append.mp hr with hr | hr
          · exact List.mem_append_left _ hr
          · exact List.mem_append_right _ (List.mem_cons_of_mem _ hr)
        · obtain ⟨d', hd', hkept⟩ := ofLineFrom_over hnext hlen h
          exact ⟨d', List.mem_cons_of_mem _ hd', hkept⟩

end Directive

end StyleRules
