import StyleRules.Proofs.Delimiters
import StyleRules.Proofs.Directives
import Mathlib.Data.List.DropRight

namespace StyleRules

namespace Directive

/-- What stands before a rest has no sign that starts a comment. -/
def Passes (text rest : Text) : Prop := ∃ passed, text = passed ++ rest ∧ '#' ∉ passed

namespace Passes

variable {text rest more : Text}

theorem refl (text : Text) : Passes text text := ⟨[], rfl, List.not_mem_nil⟩

theorem trans (h : Passes text more) (h' : Passes more rest) : Passes text rest := by
  obtain ⟨passed, rfl, hpassed⟩ := h
  obtain ⟨further, rfl, hfurther⟩ := h'
  exact ⟨passed ++ further, (List.append_assoc ..).symm, by simp [hpassed, hfurther]⟩

theorem dropWhile {p : Char → Bool} (hp : p '#' = false) (text : Text) :
    Passes text (text.dropWhile p) := by
  refine ⟨text.takeWhile p, List.takeWhile_append_dropWhile.symm, fun h => ?_⟩
  have := List.mem_takeWhile_imp h
  rw [hp] at this
  cases this

theorem after? {piece : Text} (hpiece : '#' ∉ piece)
    (h : Directive.after? piece text = some rest) : Passes text rest := by
  unfold Directive.after? at h
  split at h
  next hstart =>
    obtain ⟨after, rfl⟩ := List.isPrefixOf_iff_prefix.mp hstart
    cases Option.some.inj h
    exact ⟨piece, by rw [List.drop_left], hpiece⟩
  next => cases h

theorem readModifier (text : Text) : Passes text (Directive.readModifier text).2 := by
  have hfound : ∀ found, [Modifier.next, .this, .previous].findSome? (fun m =>
      (Directive.after? (':' :: m.name) text).map fun rest => (m, rest)) = some found →
      Passes text found.2 := by
    intro found h
    obtain ⟨m, -, hm⟩ := List.exists_of_findSome?_eq_some h
    obtain ⟨rest, hrest, rfl⟩ := Option.map_eq_some_iff.mp hm
    exact after? (by cases m <;> decide) hrest
  unfold Directive.readModifier
  dsimp only
  cases h : [Modifier.next, .this, .previous].findSome? fun m =>
      (Directive.after? (':' :: m.name) text).map fun rest => (m, rest) with
  | none => exact refl text
  | some found => exact hfound found h

theorem afterSeparator (text : Text) : Passes text (Directive.afterSeparator text) := by
  have hspace (text : Text) : Passes text (text.dropWhile Text.isSpaceOrTab) :=
    dropWhile (by decide) text
  unfold Directive.afterSeparator
  dsimp only
  split
  next rest h =>
    have hcomma : Passes (',' :: rest) rest := ⟨[','], rfl, by decide⟩
    exact (h ▸ hspace text).trans (hcomma.trans (hspace rest))
  next => exact hspace text

theorem rulesOf (text : Text) : Passes text (Directive.rulesOf text).2 := by
  induction hn : text.length using Nat.strong_induction_on generalizing text with
  | _ n ih =>
    have hword : Passes text (text.dropWhile Text.isWordChar) := dropWhile (by decide) text
    by_cases hw : text.takeWhile Text.isWordChar = []
    · rw [rulesOf_of_no_word hw]
      exact refl text
    · have hlt := length_afterSeparator_lt hw
      rw [rulesOf_of_word hw]
      split
      next => exact hword
      next => exact hword.trans ((afterSeparator _).trans (ih _ (by omega) _ rfl))

end Passes

/-- A Python directive starts with the sign that starts a comment, and has no other. -/
theorem read?_python_passes {text left : Text} {m : Modifier} {rules : List Text}
    (h : read? .python text = some (m, rules, left)) :
    ∃ rest, text = '#' :: rest ∧ Passes rest left := by
  rw [read?_eq] at h
  obtain ⟨found, hfound, h⟩ := Option.bind_eq_some_iff.mp h
  obtain ⟨first, hfirst, hfound⟩ := Option.bind_eq_some_iff.mp hfound
  obtain ⟨second, hsecond, rfl⟩ := Option.map_eq_some_iff.mp hfound
  have hleft : (rulesOf ((readModifier second).2.dropWhile Text.isSpaceOrTab)).2 = left := by
    split at h
    next => cases h
    next => exact congrArg (fun found => found.2.2) (Option.some.inj h)
  rw [Mask.python_lineComment, after?] at hfirst
  split at hfirst
  next hstart =>
    obtain ⟨rest, rfl⟩ := List.isPrefixOf_iff_prefix.mp hstart
    cases Option.some.inj hfirst
    refine ⟨rest, rfl, ?_⟩
    have hblank : Passes rest (rest.dropWhile Text.isBlank) := Passes.dropWhile (by decide) rest
    have hkeyword : Passes (rest.dropWhile Text.isBlank) second :=
      Passes.after? (by decide) hsecond
    have hspace : Passes (readModifier second).2
        ((readModifier second).2.dropWhile Text.isSpaceOrTab) := Passes.dropWhile (by decide) _
    rw [← hleft]
    exact hblank.trans (hkeyword.trans ((Passes.readModifier second).trans
      (hspace.trans (Passes.rulesOf _))))
  next => cases hfirst

/-- Every directive of a line is read somewhere in the line. -/
theorem exists_read?_of_mem {d : Dialect} {line skip character : Nat} {text : Text}
    {found : Directive} (h : found ∈ ofLineFrom d line skip character text) :
    ∃ before after m rules left, text = before ++ after ∧
      read? d after = some (m, rules, left) ∧
      found = ⟨line, character + before.length, rules, m⟩ := by
  fun_induction ofLineFrom d line skip character text with
  | case1 => cases h
  | case2 character c rest k ih =>
    obtain ⟨before, after, m, rules, left, rfl, hread, rfl⟩ := ih h
    exact ⟨c :: before, after, m, rules, left, rfl, hread, by
      rw [List.length_cons, Nat.add_right_comm, Nat.add_assoc]⟩
  | case3 character c rest m rules left hread ih =>
    rcases List.mem_cons.mp h with rfl | h
    · exact ⟨[], c :: rest, m, rules, left, rfl, hread, rfl⟩
    · obtain ⟨before, after, m, rules, left, rfl, hread, rfl⟩ := ih h
      exact ⟨c :: before, after, m, rules, left, rfl, hread, by
        rw [List.length_cons, Nat.add_right_comm, Nat.add_assoc]⟩
  | case4 character c rest hread ih =>
    obtain ⟨before, after, m, rules, left, rfl, hread, rfl⟩ := ih h
    exact ⟨c :: before, after, m, rules, left, rfl, hread, by
      rw [List.length_cons, Nat.add_right_comm, Nat.add_assoc]⟩

/-- Wherever a directive can be read in a Python line there is one: none reaches over the start of
another. -/
theorem mem_ofLineFrom_of_read? {line skip character : Nat} {before after left : Text}
    {m : Modifier} {rules : List Text} (hskip : '#' ∉ (before ++ after).take skip)
    (hread : read? .python after = some (m, rules, left)) :
    ⟨line, character + before.length, rules, m⟩ ∈
      ofLineFrom .python line skip character (before ++ after) := by
  obtain ⟨rest, rfl, -⟩ := read?_python_passes hread
  induction before generalizing skip character with
  | nil =>
    cases skip with
    | succ k => exact absurd List.mem_cons_self hskip
    | zero =>
      rw [List.nil_append, ofLineFrom, hread]
      exact List.mem_cons_self
  | cons c before ih =>
    have hcharacter : character + (c :: before).length = character + 1 + before.length := by
      rw [List.length_cons, Nat.add_right_comm, Nat.add_assoc]
    rw [hcharacter, List.cons_append]
    cases skip with
    | succ k => exact ih fun h => hskip (List.mem_cons_of_mem c h)
    | zero =>
      unfold ofLineFrom
      dsimp only
      split
      next m' rules' left' hread' =>
        obtain ⟨rest', heq, passed, hrest', hpassed⟩ := read?_python_passes hread'
        cases heq
        refine List.mem_cons_of_mem _ (ih ?_)
        rw [hrest', List.length_append, Nat.add_sub_cancel, List.take_left]
        exact hpassed
      next => exact ih (by simp)

/-- Behind a space, whatever a directive reads in the first text it reads in the second as well. -/
def Yields (z w : Text) : Prop :=
  (∀ p : Char → Bool, p ' ' = true → z.dropWhile p = w.dropWhile p) ∨
    ∃ c rest, z = c :: rest ∧ (c = '=' ∨ c = '!')

theorem dropWhile_space {p : Char → Bool} (hp : p ' ' = true) (s z : Text) :
    (s ++ ' ' :: z).dropWhile p =
      if s.dropWhile p = [] then z.dropWhile p else s.dropWhile p ++ ' ' :: z := by
  rw [List.dropWhile_append, List.dropWhile_cons_of_pos hp]
  simp only [List.isEmpty_iff]

variable {z w : Text}

theorem head_of_sign {c : Char} (h : c = '=' ∨ c = '!') :
    Text.isBlank c = false ∧ Text.isSpaceOrTab c = false ∧ Text.isWordChar c = false ∧ c ≠ ',' ∧
      c ≠ 'l' := by
  rcases h with rfl | rfl
  all_goals decide

theorem rulesOf_sign {c : Char} (h : c = '=' ∨ c = '!') (rest : Text) :
    (rulesOf (c :: rest)).1 = [] := by
  rw [rulesOf_of_no_word]
  rw [List.takeWhile_cons, (head_of_sign h).2.2.1]
  rfl

theorem afterSeparator_comma (rest : Text) :
    afterSeparator (',' :: rest) = rest.dropWhile Text.isSpaceOrTab := by
  have hcomma : (',' :: rest).dropWhile Text.isSpaceOrTab = ',' :: rest :=
    List.dropWhile_cons_of_neg (by decide)
  unfold afterSeparator
  rw [hcomma]
  rfl

theorem afterSeparator_of_head {c : Char} (rest : Text) (hspace : Text.isSpaceOrTab c = false)
    (hcomma : c ≠ ',') : afterSeparator (c :: rest) = c :: rest := by
  have hdrop : (c :: rest).dropWhile Text.isSpaceOrTab = c :: rest :=
    List.dropWhile_cons_of_neg (by simp [hspace])
  unfold afterSeparator
  rw [hdrop]
  dsimp only
  split
  next heq => exact absurd (List.cons.inj heq).1 hcomma
  next => rfl

theorem afterSeparator_dropWhile (text : Text) :
    afterSeparator (text.dropWhile Text.isSpaceOrTab) = afterSeparator text := by
  unfold afterSeparator
  rw [List.dropWhile_idempotent]

/-- Behind the separators either the same is left to read, or nothing more is read. -/
theorem afterSeparator_space (h : Yields z w) (s : Text) :
    (∃ s', s'.length ≤ s.length ∧ afterSeparator (s ++ ' ' :: z) = s' ++ ' ' :: z ∧
        afterSeparator (s ++ ' ' :: w) = s' ++ ' ' :: w) ∨
      afterSeparator (s ++ ' ' :: z) = afterSeparator (s ++ ' ' :: w) ∨
      (rulesOf (afterSeparator (s ++ ' ' :: z))).1 = [] := by
  have hspace : Text.isSpaceOrTab ' ' = true := by decide
  have hdropped (s : Text) : (s.dropWhile Text.isSpaceOrTab).length ≤ s.length :=
    (List.dropWhile_suffix _).length_le
  rw [← afterSeparator_dropWhile, ← afterSeparator_dropWhile (s ++ ' ' :: w),
    dropWhile_space hspace, dropWhile_space hspace]
  cases hs : s.dropWhile Text.isSpaceOrTab with
  | nil =>
    rw [if_pos rfl, if_pos rfl]
    rcases h with hsame | ⟨c, rest, rfl, hc⟩
    · exact Or.inr (Or.inl (by rw [hsame _ hspace]))
    · obtain ⟨-, hnot, -, hcomma, -⟩ := head_of_sign hc
      rw [afterSeparator_dropWhile, afterSeparator_of_head rest hnot hcomma]
      exact Or.inr (Or.inr (rulesOf_sign hc rest))
  | cons c s' =>
    have hlength := hdropped s
    rw [hs, List.length_cons] at hlength
    rw [if_neg (List.cons_ne_nil _ _), if_neg (List.cons_ne_nil _ _), List.cons_append,
      List.cons_append]
    by_cases hcomma : c = ','
    · subst hcomma
      rw [afterSeparator_comma, afterSeparator_comma, dropWhile_space hspace,
        dropWhile_space hspace]
      split
      next =>
        rcases h with hsame | ⟨c, rest, rfl, hc⟩
        · exact Or.inr (Or.inl (hsame _ hspace))
        · obtain ⟨-, hnot, -⟩ := head_of_sign hc
          rw [List.dropWhile_cons_of_neg (by simp [hnot])]
          exact Or.inr (Or.inr (rulesOf_sign hc rest))
      next =>
        have := hdropped s'
        exact Or.inl ⟨s'.dropWhile Text.isSpaceOrTab, by omega, rfl, rfl⟩
    · have hnot : Text.isSpaceOrTab c = false := by
        have := List.head?_dropWhile_not Text.isSpaceOrTab s
        rw [hs] at this
        simpa using this
      rw [afterSeparator_of_head _ hnot hcomma, afterSeparator_of_head _ hnot hcomma]
      exact Or.inl ⟨c :: s', by simpa using hlength, rfl, rfl⟩

theorem rulesOf_space (h : Yields z w) (s : Text) :
    (rulesOf (s ++ ' ' :: z)).1 ⊆ (rulesOf (s ++ ' ' :: w)).1 := by
  induction hn : s.length using Nat.strong_induction_on generalizing s with
  | _ n ih =>
    have hword : ∀ c ∈ (' ' :: z).head?, Text.isWordChar c = false := by simp; decide
    have hword' : ∀ c ∈ (' ' :: w).head?, Text.isWordChar c = false := by simp; decide
    have htake := Text.takeWhile_append_of_head s hword
    have htake' := Text.takeWhile_append_of_head s hword'
    by_cases hw : s.takeWhile Text.isWordChar = []
    · rw [rulesOf_of_no_word (htake.trans hw)]
      exact List.nil_subset _
    · have hdrop := Text.dropWhile_append_of_head s hword
      have hdrop' := Text.dropWhile_append_of_head s hword'
      have hlt : (s.dropWhile Text.isWordChar).length < s.length := by
        have hsplit := congrArg List.length
          (List.takeWhile_append_dropWhile (p := Text.isWordChar) (l := s))
        have := List.length_pos_iff.mpr hw
        rw [List.length_append] at hsplit
        omega
      have hfurther : (rulesOf (afterSeparator (s.dropWhile Text.isWordChar ++ ' ' :: z))).1 ⊆
          (rulesOf (afterSeparator (s.dropWhile Text.isWordChar ++ ' ' :: w))).1 := by
        rcases afterSeparator_space h (s.dropWhile Text.isWordChar) with
          ⟨s', hs', hz, hw⟩ | heq | hnone
        · rw [hz, hw]
          exact ih s'.length (by omega) s' rfl
        · rw [heq]
          exact List.Subset.refl _
        · rw [hnone]
          exact List.nil_subset _
      have hsplit (found : List Text × Text) (word rest : Text) :
          (if found.1 = [] then ([word], rest) else (word :: found.1, found.2)).1 =
            word :: found.1 := by
        split
        next hnil => rw [hnil]
        next => rfl
      have hz := rulesOf_of_word (htake.symm ▸ hw)
      have hw := rulesOf_of_word (htake'.symm ▸ hw)
      rw [hz, hw, htake, htake', hdrop, hdrop', hsplit, hsplit]
      exact List.cons_subset_cons _ hfurther

/-- Up to the identifiers a directive reads the same, or it ends at the space. -/
theorem opened?_space (h : Yields z w) {s x : Text} {m : Modifier}
    (hopened : opened? .python (s ++ ' ' :: z) = some (m, x)) :
    (∃ t, x = t ++ ' ' :: z ∧ opened? .python (s ++ ' ' :: w) = some (m, t ++ ' ' :: w)) ∨
      opened? .python (s ++ ' ' :: w) = some (m, x) := by
  have hforeign (needle : Text) (hneedle : ' ' ∉ needle) (z : Text) :
      Text.Foreign needle (' ' :: z) := Text.foreign_cons z hneedle
  have hlineComment : ' ' ∉ Dialect.python.lineComment := by decide
  have hkeyword : ' ' ∉ Dialect.directivePrefix ++ ":disable".toList := by decide
  have hmodifier (m : Modifier) : ' ' ∉ ':' :: m.name := by cases m <;> decide
  have hblank : Text.isBlank ' ' = true := by decide
  unfold opened? at hopened ⊢
  rw [after?_append_of_foreign s (hforeign _ hlineComment z)] at hopened
  rw [after?_append_of_foreign s (hforeign _ hlineComment w)]
  cases hs : after? Dialect.python.lineComment s with
  | none =>
    rw [hs] at hopened
    cases hopened
  | some rest =>
    rw [hs, Option.map_some, Option.bind_some, dropWhile_space hblank] at hopened
    rw [Option.map_some, Option.bind_some, dropWhile_space hblank]
    by_cases hrest : rest.dropWhile Text.isBlank = []
    · rw [if_pos hrest] at hopened ⊢
      rcases h with hsame | ⟨c, more, rfl, hc⟩
      · rw [← hsame _ hblank]
        exact Or.inr hopened
      · obtain ⟨hnot, -, -, -, hl⟩ := head_of_sign hc
        have hnone : after? (Dialect.directivePrefix ++ ":disable".toList) (c :: more) = none := by
          apply if_neg
          show ¬Text.startsWith ('l' :: _) (c :: more) = true
          simp [Text.startsWith, List.isPrefixOf, Ne.symm hl]
        rw [List.dropWhile_cons_of_neg (by simp [hnot]), hnone] at hopened
        cases hopened
    · rw [if_neg hrest, after?_append_of_foreign _ (hforeign _ hkeyword z)] at hopened
      rw [if_neg hrest, after?_append_of_foreign _ (hforeign _ hkeyword w)]
      cases hafter : after? (Dialect.directivePrefix ++ ":disable".toList)
          (rest.dropWhile Text.isBlank) with
      | none =>
        rw [hafter] at hopened
        cases hopened
      | some second =>
        rw [hafter, Option.map_some, Option.map_some,
          readModifier_append second fun m => hforeign _ (hmodifier m) z] at hopened
        rw [Option.map_some, Option.map_some,
          readModifier_append second fun m => hforeign _ (hmodifier m) w]
        cases hopened
        exact Or.inl ⟨_, rfl, rfl⟩

/-- A directive that is read in a text with a space in it is read again if what follows the space
yields to another text, with at least the identifiers that it had. -/
theorem read?_space (h : Yields z w) {s left : Text} {m : Modifier} {rules : List Text}
    (hread : read? .python (s ++ ' ' :: z) = some (m, rules, left)) :
    ∃ rules' left', read? .python (s ++ ' ' :: w) = some (m, rules', left') ∧ rules ⊆ rules' := by
  have hspace : Text.isSpaceOrTab ' ' = true := by decide
  rw [read?_eq] at hread ⊢
  obtain ⟨⟨m', x⟩, hopened, hread⟩ := Option.bind_eq_some_iff.mp hread
  dsimp only at hread
  split at hread
  next => cases hread
  next hne =>
    obtain ⟨rfl, hfound⟩ := Prod.mk.inj (Option.some.inj hread)
    have hfst : (rulesOf (x.dropWhile Text.isSpaceOrTab)).1 = rules := congrArg Prod.fst hfound
    subst hfst
    obtain ⟨htake, hrules⟩ := not_or.mp hne
    rcases opened?_space h hopened with ⟨t, rfl, hopened'⟩ | hopened'
    · have hsubset : (rulesOf ((t ++ ' ' :: z).dropWhile Text.isSpaceOrTab)).1 ⊆
          (rulesOf ((t ++ ' ' :: w).dropWhile Text.isSpaceOrTab)).1 := by
        rw [dropWhile_space hspace, dropWhile_space hspace]
        split
        next =>
          rcases h with hsame | ⟨c, rest, rfl, hc⟩
          · rw [hsame _ hspace]
            exact List.Subset.refl _
          · rw [List.dropWhile_cons_of_neg (by simp [(head_of_sign hc).2.1]),
              rulesOf_sign hc]
            exact List.nil_subset _
        next => exact rulesOf_space h _
      have htake' : (t ++ ' ' :: w).takeWhile Text.isSpaceOrTab ≠ [] := by
        cases t with
        | nil => simp [hspace]
        | cons c t =>
          cases hc : Text.isSpaceOrTab c with
          | true => simp [hc]
          | false => exact absurd (by simp [hc]) htake
      have hrules' : (rulesOf ((t ++ ' ' :: w).dropWhile Text.isSpaceOrTab)).1 ≠ [] := by
        intro hnil
        rw [hnil] at hsubset
        exact hrules (List.subset_nil.mp hsubset)
      refine ⟨_, (rulesOf ((t ++ ' ' :: w).dropWhile Text.isSpaceOrTab)).2, ?_, hsubset⟩
      rw [hopened', Option.bind_some, if_neg (not_or.mpr ⟨htake', hrules'⟩)]
    · refine ⟨_, (rulesOf (x.dropWhile Text.isSpaceOrTab)).2, ?_, List.Subset.refl _⟩
      rw [hopened', Option.bind_some, if_neg (not_or.mpr ⟨htake, hrules⟩)]

/-- What a directive and the one read in its place have in common once a stretch behind a cut of
their line is longer. -/
structure Stays (cut growth : Nat) (d d' : Directive) : Prop where
  line : d'.line = d.line
  modifier : d'.modifier = d.modifier
  rules : ∀ rule, d.appliesTo rule = true → d'.appliesTo rule = true
  character : (d.character ≤ cut ∧ d'.character = d.character) ∨
    (cut + 1 < d.character ∧ d'.character = d.character + growth)

/-- Every directive of a line is read again once a stretch behind a space is replaced. -/
theorem ofLineFrom_space {line growth : Nat} {s a b rest : Text} {d : Directive}
    (h : Yields (a ++ rest) (b ++ rest)) (hsign : '#' ∉ a) (hne : a ≠ [])
    (hlength : b.length = a.length + growth)
    (hd : d ∈ ofLineFrom .python line 0 1 (s ++ ' ' :: (a ++ rest))) :
    ∃ d' ∈ ofLineFrom .python line 0 1 (s ++ ' ' :: (b ++ rest)),
      Stays (s.length + 1) growth d d' := by
  obtain ⟨before, after, m, rules, left, htext, hread, rfl⟩ := exists_read?_of_mem hd
  have hpos := List.length_pos_iff.mpr hne
  have hearly : ∀ further, s = before ++ further → after = further ++ ' ' :: (a ++ rest) →
      ∃ d' ∈ ofLineFrom .python line 0 1 (s ++ ' ' :: (b ++ rest)),
        Stays (s.length + 1) growth ⟨line, 1 + before.length, rules, m⟩ d' := by
    rintro further rfl rfl
    obtain ⟨rules', left', hread', hsubset⟩ := read?_space h hread
    rw [List.append_assoc]
    refine ⟨_, mem_ofLineFrom_of_read? (by simp) hread', rfl, rfl,
      appliesTo_of_subset hsubset, Or.inl ⟨?_, rfl⟩⟩
    rw [List.length_append]
    dsimp only
    omega
  rcases List.append_eq_append_iff.mp htext with ⟨further, rfl, hfurther⟩ | ⟨further, hs, hafter⟩
  · cases further with
    | nil => exact hearly [] (by simp) hfurther.symm
    | cons c further =>
      obtain ⟨rfl, hbehindSpace⟩ := List.cons.inj hfurther
      have hbehind : ∀ more, further = a ++ more → rest = more ++ after →
          ∃ d' ∈ ofLineFrom .python line 0 1 (s ++ ' ' :: (b ++ rest)),
            Stays (s.length + 1) growth
              ⟨line, 1 + (s ++ ' ' :: further).length, rules, m⟩ d' := by
        rintro more rfl rfl
        have hsplit : s ++ ' ' :: (b ++ (more ++ after)) = (s ++ ' ' :: (b ++ more)) ++ after := by
          simp
        rw [hsplit]
        refine ⟨_, mem_ofLineFrom_of_read? (by simp) hread, rfl, rfl, fun _ hr => hr,
          Or.inr ⟨?_, ?_⟩⟩
        · simp only [List.length_append, List.length_cons]
          omega
        · simp only [List.length_append, List.length_cons]
          omega
      rcases List.append_eq_append_iff.mp hbehindSpace with
        ⟨more, hmore, hrest⟩ | ⟨more, hmore, hafter⟩
      · exact hbehind more hmore hrest
      · cases more with
        | nil => exact hbehind [] (by simpa using hmore.symm) (by simpa using hafter.symm)
        | cons c more =>
          obtain ⟨tail, htail, -⟩ := read?_python_passes hread
          rw [hafter] at htail
          obtain ⟨rfl, -⟩ := List.cons.inj htail
          exact absurd (by rw [hmore]; simp) hsign
  · exact hearly further hs hafter

end Directive

end StyleRules
