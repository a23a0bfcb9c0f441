import StyleRules.Proofs.ChainSpans
import StyleRules.Proofs.Words
import Mathlib.Data.List.Find

namespace StyleRules

namespace Token

variable {m s s' : Text}

/-- The text starts like an operator that compares for equality or for identity. -/
def StartsOperator (s : Text) : Prop := ∃ x ∈ s.head?, x = '=' ∨ x = '!' ∨ x = 'i'

theorem run_space {p : Char → Bool} (hp : p ' ' = false) (m s : Text) :
    run p (m ++ ' ' :: s) = run p m := by
  rw [run, Text.takeWhile_append_of_head m (by simpa using hp), run]

theorem run_le (p : Char → Bool) (m : Text) : run p m ≤ m.length :=
  (List.takeWhile_sublist p).length_le

theorem drop_space {n : Nat} (h : n ≤ m.length) (s : Text) :
    (m ++ ' ' :: s).drop n = m.drop n ++ ' ' :: s := List.drop_append_of_le_length h

theorem digits_space {p : Char → Bool} (hp : p ' ' = false) (m s : Text) :
    digits p (m ++ ' ' :: s) = digits p m :=
  run_space (by simp [hp]) m s

theorem digits_le (p : Char → Bool) (m : Text) : digits p m ≤ m.length := run_le _ m

theorem startsWith_space {needle : Text} (h : ' ' ∉ needle) (m s : Text) :
    Text.startsWith needle (m ++ ' ' :: s) = Text.startsWith needle m :=
  Text.startsWith_append_of_foreign m (Text.foreign_cons s h)

/-- Length of what stands after the letter of an exponent, zero if it is none. -/
def power (text : Text) : Nat :=
  match text with
  | '+' :: more | '-' :: more =>
    if digits Char.isDigit more = 0 then 0 else digits Char.isDigit more + 2
  | more => if run Char.isDigit more = 0 then 0 else digits Char.isDigit more + 1

theorem exponent_cons (e : Char) (rest : Text) :
    exponent (e :: rest) = if e = 'e' ∨ e = 'E' then power rest else 0 := rfl

theorem power_cons {c : Char} (rest : Text) (hplus : c ≠ '+') (hminus : c ≠ '-') :
    power (c :: rest) = if run Char.isDigit (c :: rest) = 0 then 0
      else digits Char.isDigit (c :: rest) + 1 := by
  simp [power, hplus, hminus]

theorem power_space (m s : Text) : power (m ++ ' ' :: s) = power m := by
  have hspace : Char.isDigit ' ' = false := by decide
  cases m with
  | nil => simp [power, run]
  | cons c more =>
    by_cases hsign : c = '+' ∨ c = '-'
    · rcases hsign with rfl | rfl
      all_goals simp only [List.cons_append, power, digits_space hspace]
    · obtain ⟨hplus, hminus⟩ := not_or.mp hsign
      rw [List.cons_append, power_cons _ hplus hminus, power_cons _ hplus hminus,
        ← List.cons_append, run_space hspace, digits_space hspace]

theorem power_le (m : Text) : power m ≤ m.length + 1 := by
  fun_cases power m with
  | case1 more => exact Nat.zero_le _
  | case2 more =>
    have := digits_le Char.isDigit more
    simp only [List.length_cons]
    omega
  | case3 more => exact Nat.zero_le _
  | case4 more =>
    have := digits_le Char.isDigit more
    simp only [List.length_cons]
    omega
  | case5 => exact Nat.zero_le _
  | case6 => 
    have := digits_le Char.isDigit m
    omega

theorem exponent_space (m s : Text) : exponent (m ++ ' ' :: s) = exponent m := by
  cases m with
  | nil => rfl
  | cons e m => rw [List.cons_append, exponent_cons, exponent_cons, power_space]

theorem exponent_le (m : Text) : exponent m ≤ m.length := by
  cases m with
  | nil => exact Nat.le_refl 0
  | cons e rest =>
    rw [exponent_cons]
    split
    next => exact power_le rest
    next => exact Nat.zero_le _

theorem imaginary_cons (c : Char) (rest : Text) :
    imaginary (c :: rest) = if c = 'j' ∨ c = 'J' then 1 else 0 := by
  by_cases hlower : c = 'j'
  · subst hlower
    rfl
  · by_cases hupper : c = 'J'
    · subst hupper
      rfl
    · simp [imaginary, hlower, hupper]

theorem imaginary_space (m s : Text) : imaginary (m ++ ' ' :: s) = imaginary m := by
  cases m with
  | nil => rfl
  | cons c m => rw [List.cons_append, imaginary_cons, imaginary_cons]

/-- Length of the fraction at the start of a text. -/
def fraction (text : Text) : Nat :=
  match text with
  | '.' :: more => digits Char.isDigit more + 1
  | _ => 0

theorem fraction_space (m s : Text) : fraction (m ++ ' ' :: s) = fraction m := by
  cases m with
  | nil => rfl
  | cons c m =>
    by_cases hc : c = '.'
    · subst hc
      simp only [List.cons_append, fraction, digits_space (p := Char.isDigit) (by decide)]
    · simp [fraction, hc]

theorem fraction_le (m : Text) : fraction m ≤ m.length := by
  unfold fraction
  split
  next more =>
    have := digits_le Char.isDigit more
    simp only [List.length_cons]
    omega
  next => exact Nat.zero_le _

theorem decimal_eq (text : Text) : decimal text =
    let whole := digits Char.isDigit text
    let part := fraction (text.drop whole)
    let power := exponent ((text.drop whole).drop part)
    whole + part + power + imaginary (((text.drop whole).drop part).drop power) := rfl

theorem decimal_space (m s : Text) : decimal (m ++ ' ' :: s) = decimal m := by
  rw [decimal_eq, decimal_eq]
  dsimp only
  rw [digits_space (by decide), drop_space (digits_le _ m), fraction_space,
    drop_space (fraction_le _), exponent_space, drop_space (exponent_le _), imaginary_space]

theorem number_space (m s : Text) : number (m ++ ' ' :: s) = number m := by
  fun_cases number m with
  | case1 x rest hx =>
    simp only [List.cons_append, number, if_pos hx, digits_space (p := isHexDigit) (by decide)]
  | case2 x rest hhex hx =>
    simp only [List.cons_append, number, if_neg hhex, if_pos hx,
      digits_space (p := Char.isDigit) (by decide)]
  | case3 x rest hhex hx =>
    simp only [List.cons_append, number, if_neg hhex, if_neg hx]
    exact decimal_space ('0' :: x :: rest) s
  | case4 _ hzero =>
    have hdecimal : number (m ++ ' ' :: s) = decimal (m ++ ' ' :: s) := by
      match m with
      | [] => rfl
      | [c] =>
        by_cases hc : c = '0'
        · subst hc
          simp [number]
        · simp [number, hc]
      | c :: x :: rest =>
        have hc : c ≠ '0' := fun h => hzero x rest (by rw [h])
        simp [number, hc]
    rw [hdecimal, decimal_space]

theorem quoteAt?_eq (text : Text) : quoteAt? text =
    if Text.startsWith ['"', '"', '"'] text then some ['"', '"', '"']
    else if Text.startsWith ['\'', '\'', '\''] text then some ['\'', '\'', '\'']
    else if Text.startsWith ['"'] text then some ['"']
    else if Text.startsWith ['\''] text then some ['\'']
    else none := by
  have hstart (needle : Text) : Text.startsWith needle text = true ↔ needle <+: text :=
    List.isPrefixOf_iff_prefix
  simp only [hstart]
  fun_cases quoteAt? text with
  | case1 tail => simp
  | case2 tail => simp
  | case3 tail h =>
    have hne : ¬ ['"', '"', '"'] <+: '"' :: tail := by
      rintro ⟨more, hmore⟩
      exact h more (List.cons.inj hmore).2.symm
    rw [if_neg hne]
    simp
  | case4 tail h =>
    have hne : ¬ ['\'', '\'', '\''] <+: '\'' :: tail := by
      rintro ⟨more, hmore⟩
      exact h more (List.cons.inj hmore).2.symm
    rw [if_neg (by simp), if_neg hne]
    simp
  | case5 _ hthree hthree' hone hone' =>
    have hdouble (more : Text) : ¬ '"' :: more <+: text := by
      rintro ⟨rest, hrest⟩
      exact hone _ hrest.symm
    have hsingle (more : Text) : ¬ '\'' :: more <+: text := by
      rintro ⟨rest, hrest⟩
      exact hone' _ hrest.symm
    rw [if_neg (hdouble _), if_neg (hsingle _), if_neg (hdouble _), if_neg (hsingle _)]

theorem quoteAt?_space (m s : Text) : quoteAt? (m ++ ' ' :: s) = quoteAt? m := by
  rw [quoteAt?_eq, quoteAt?_eq, startsWith_space (by decide), startsWith_space (by decide),
    startsWith_space (by decide), startsWith_space (by decide)]

theorem operator_space (m s : Text) : operator (m ++ ' ' :: s) = operator m := by
  have hlong : ∀ op ∈ longOperators, ' ' ∉ op := by decide
  have hfind : longOperators.find? (Text.startsWith · (m ++ ' ' :: s)) =
      longOperators.find? (Text.startsWith · m) :=
    List.find?_congr fun op hop => startsWith_space (hlong op hop) m s
  rw [operator, operator, hfind]

/-- A run that ends no later than at a space does not depend on what comes after the space. -/
theorem run_cut {p : Char → Bool} (hp : p ' ' = true) (hs : ∃ x ∈ s.head?, p x = true)
    (h : run p (m ++ ' ' :: s) ≤ m.length + 1) (s' : Text) :
    run p (m ++ ' ' :: s') = run p (m ++ ' ' :: s) := by
  induction m with
  | nil =>
    obtain ⟨x, hx, hpx⟩ := hs
    obtain ⟨rest, rfl⟩ := List.head?_eq_some_iff.mp hx
    simp [run, hp, hpx] at h
  | cons c m ih =>
    simp only [run, List.cons_append, List.takeWhile_cons] at h ih ⊢
    split
    next hc =>
      rw [if_pos hc] at h
      simp only [List.length_cons] at h ⊢
      rw [ih (by omega)]
    next => rfl

/-- Right before a character that neither ends nor closes a literal, there is more of it. -/
theorem literalRest_pos {quote : Text} (hne : quote ≠ [])
    (hs : ∃ x ∈ s.head?, x ≠ '\n' ∧ x ∉ quote) (pending : Nat) :
    literalRest quote pending s ≠ 0 := by
  obtain ⟨x, hx, hnewline, hquote⟩ := hs
  obtain ⟨rest, rfl⟩ := List.head?_eq_some_iff.mp hx
  cases pending with
  | succ k => exact Nat.succ_ne_zero _
  | zero =>
    have hstart := Text.startsWith_of_not_mem rest hne hquote
    simp [literalRest, hstart, hnewline]

/-- The rest of a literal that ends no later than at a space does not depend on what comes after
the space. -/
theorem literalRest_cut {quote : Text} (hne : quote ≠ []) (hspace : ' ' ∉ quote)
    (hs : ∃ x ∈ s.head?, x ≠ '\n' ∧ x ∉ quote) {pending : Nat}
    (h : literalRest quote pending (m ++ ' ' :: s) ≤ m.length + 1) (s' : Text) :
    literalRest quote pending (m ++ ' ' :: s') = literalRest quote pending (m ++ ' ' :: s) := by
  have hstart := fun m s => startsWith_space hspace m s
  induction m generalizing pending with
  | nil =>
    have hpos := literalRest_pos hne hs
    cases pending with
    | succ k =>
      simp only [List.nil_append, literalRest, List.length_nil] at h
      exact absurd (by omega) (hpos k)
    | zero =>
      have hnil := Text.startsWith_nil hne
      have := hstart [] s
      simp only [List.nil_append] at this
      simp [literalRest, this, hnil] at h
      exact absurd h (hpos 0)
  | cons c m ih =>
    cases pending with
    | succ k =>
      simp only [List.cons_append, literalRest, List.length_cons] at h ⊢
      rw [ih (by omega)]
    | zero =>
      have hc := hstart (c :: m) s
      have hc' := hstart (c :: m) s'
      simp only [List.cons_append] at hc hc'
      simp only [List.cons_append, literalRest, hc, hc', List.length_cons] at h ⊢
      split
      next => rfl
      next hquote =>
        rw [if_neg hquote] at h
        split
        next => rfl
        next hend =>
          rw [if_neg hend] at h
          rw [ih (by omega)]

theorem quoteAt?_spec {text quote : Text} (h : quoteAt? text = some quote) :
    quote ≠ [] ∧ quote <+: text ∧ ∀ x ∈ quote, x = '"' ∨ x = '\'' := by
  rw [quoteAt?_eq] at h
  split at h
  next hstart =>
    cases Option.some.inj h
    exact ⟨by simp, List.isPrefixOf_iff_prefix.mp hstart, by simp⟩
  next =>
    split at h
    next hstart =>
      cases Option.some.inj h
      exact ⟨by simp, List.isPrefixOf_iff_prefix.mp hstart, by simp⟩
    next =>
      split at h
      next hstart =>
        cases Option.some.inj h
        exact ⟨by simp, List.isPrefixOf_iff_prefix.mp hstart, by simp⟩
      next =>
        split at h
        next hstart =>
          cases Option.some.inj h
          exact ⟨by simp, List.isPrefixOf_iff_prefix.mp hstart, by simp⟩
        next => cases h

theorem findQuote_cut (hs : StartsOperator s) {frames : List Frame} {mark quote : Text}
    (hquote : quoteAt? m = some quote)
    (h : (findQuote frames mark quote (m ++ ' ' :: s)).length ≤ mark.length + m.length + 1)
    (s' : Text) :
    findQuote frames mark quote (m ++ ' ' :: s') = findQuote frames mark quote (m ++ ' ' :: s) := by
  obtain ⟨hne, hstarts, hchars⟩ := quoteAt?_spec hquote
  have hlength := hstarts.length_le
  have hother : ∀ x, x ≠ '"' → x ≠ '\'' → x ∉ quote := fun x hdouble hsingle hx =>
    (hchars x hx).elim hdouble hsingle
  have hstarts : ∃ x ∈ s.head?, x ≠ '\n' ∧ x ∉ quote := by
    obtain ⟨x, hx, rfl | rfl | rfl⟩ := hs
    all_goals exact ⟨_, hx, by decide, hother _ (by decide) (by decide)⟩
  unfold findQuote at h ⊢
  split
  next => rfl
  next hmark =>
    rw [if_neg hmark] at h
    dsimp only at h ⊢
    rw [drop_space hlength] at h ⊢
    rw [drop_space hlength, literalRest_cut hne (hother ' ' (by decide) (by decide)) hstarts]
    rw [List.length_drop]
    omega

theorem findFormatted_cons (quote : Text) (raw : Bool) (outer : List Frame) (c x : Char)
    (more : Text) : findFormatted quote raw outer c (x :: more) =
      let here := Frame.formatted quote raw :: outer
      if Text.startsWith quote (c :: x :: more) then ⟨quote.length, some .closing, outer⟩
      else if c = '{' then
        if x = '{' then ⟨2, none, here⟩ else ⟨1, some .opening, .field :: here⟩
      else if c = '}' then ⟨if x = '}' then 2 else 1, none, here⟩
      else if c = '\\' then
        if x = 'N' ∧ more.head? = some '{' then
          ⟨if raw then 2 else run (· ≠ '}') (more.drop 1) + 4, none, here⟩
        else ⟨if x = '{' ∨ x = '}' then 1 else 2, none, here⟩
      else if c = '\n' ∧ quote.length = 1 then ⟨1, some .closing, outer⟩
      else ⟨1, none, here⟩ := by
  unfold findFormatted
  dsimp only
  split
  next => rfl
  next =>
    split
    all_goals simp_all
    · cases raw
      all_goals rfl
    next hnamed _ _ _ _ =>
      intro hn hhead
      obtain ⟨rest, hrest⟩ := List.head?_eq_some_iff.mp hhead
      exact absurd hrest (hnamed rest hn)

theorem findFormatted_cut (hs : StartsOperator s) {quote : Text} (hspace : ' ' ∉ quote) {raw : Bool}
    {outer : List Frame} {c : Char}
    (h : (findFormatted quote raw outer c (m ++ ' ' :: s)).length ≤ m.length + 2) (s' : Text) :
    findFormatted quote raw outer c (m ++ ' ' :: s') =
      findFormatted quote raw outer c (m ++ ' ' :: s) := by
  cases m with
  | nil => 
    have hstart := startsWith_space hspace [c] s
    have hstart' := startsWith_space hspace [c] s'
    simp only [List.cons_append, List.nil_append] at hstart hstart'
    simp only [List.nil_append, findFormatted_cons, hstart, hstart']
    simp
  | cons x m =>
    have hstart := startsWith_space hspace (c :: x :: m) s
    have hstart' := startsWith_space hspace (c :: x :: m) s'
    have hbrace : (m ++ ' ' :: s).head? = some '{' ↔ m.head? = some '{' := by
      cases m <;> simp
    have hbrace' : (m ++ ' ' :: s').head? = some '{' ↔ m.head? = some '{' := by
      cases m <;> simp
    simp only [List.cons_append] at hstart hstart'
    simp only [List.cons_append, findFormatted_cons, hstart, hstart', hbrace, hbrace'] at h ⊢
    split
    next => rfl
    next hopen =>
      rw [if_neg hopen] at h
      split
      next => rfl
      next hbrace =>
        rw [if_neg hbrace] at h
        split
        next => rfl
        next hbrace =>
          rw [if_neg hbrace] at h
          split
          next hescape =>
            rw [if_pos hescape] at h
            split
            next hname =>
              -- A named character ends at its closing brace.
              rw [if_pos hname] at h
              obtain ⟨m, rfl⟩ := List.head?_eq_some_iff.mp hname.2
              cases raw with
              | true => rfl
              | false =>
                obtain ⟨y, hy, hchars⟩ := hs
                simp only [Bool.false_eq_true, if_false, List.cons_append, List.drop_succ_cons,
                  List.drop_zero, List.length_cons] at h ⊢
                rw [run_cut (by decide) ⟨y, hy, by rcases hchars with rfl | rfl | rfl <;> decide⟩
                  (by omega)]
            next => rfl
          next => rfl

/-- Of two alternatives only the one that holds has to be looked at. -/
theorem ite_cut {p : Prop} [Decidable p] {a a' b b' : Found} {n : Nat}
    (h : (if p then a else b).length ≤ n) (ha : p → a.length ≤ n → a' = a)
    (hb : ¬ p → b.length ≤ n → b' = b) : (if p then a' else b') = if p then a else b := by
  split
  next hp =>
    rw [if_pos hp] at h
    exact ha hp h
  next hp =>
    rw [if_neg hp] at h
    exact hb hp h

/-- What is found in code before a space does not depend on what comes after the space. -/
theorem findCode_cut (hs : StartsOperator s) {frames : List Frame} {c : Char}
    (h : (findCode frames c (m ++ ' ' :: s)).length ≤ m.length + 2) (s' : Text) :
    findCode frames c (m ++ ' ' :: s') = findCode frames c (m ++ ' ' :: s) := by
  have hstart {needle : Text} (hspace : ' ' ∉ needle) (s : Text) :
      Text.startsWith needle (c :: (m ++ ' ' :: s)) = Text.startsWith needle (c :: m) :=
    startsWith_space hspace (c :: m) s
  have hnumber (s : Text) : number (c :: (m ++ ' ' :: s)) = number (c :: m) :=
    number_space (c :: m) s
  have hdigit (s : Text) : (m ++ ' ' :: s).head?.any Char.isDigit = m.head?.any Char.isDigit := by
    cases m with
    | nil => rfl
    | cons x m => rfl
  have hname (s : Text) : (c :: (m ++ ' ' :: s)).takeWhile isNameChar =
      (c :: m).takeWhile isNameChar :=
    Text.takeWhile_append_of_head (c :: m) (by simp; decide)
  have hdrop (s : Text) : (c :: (m ++ ' ' :: s)).drop ((c :: m).takeWhile isNameChar).length =
      (c :: m).drop ((c :: m).takeWhile isNameChar).length ++ ' ' :: s :=
    drop_space (run_le isNameChar (c :: m)) s
  have hquote (s : Text) : quoteAt? (c :: (m ++ ' ' :: s)) = quoteAt? (c :: m) :=
    quoteAt?_space (c :: m) s
  have hoperator (s : Text) : operator (c :: (m ++ ' ' :: s)) = operator (c :: m) :=
    operator_space (c :: m) s
  have hequals (s : Text) : Text.startsWith ['='] (m ++ ' ' :: s) = Text.startsWith ['='] m :=
    startsWith_space (by decide) m s
  have hconversion (s : Text) : run isNameChar (m ++ ' ' :: s) = run isNameChar m :=
    run_space (by decide) m s
  unfold findCode at h ⊢
  simp only [hstart (show ' ' ∉ ['\\', '\r', '\n'] by decide),
    hstart (show ' ' ∉ ['\\', '\n'] by decide), hnumber, hdigit, hname, hdrop, hquote, hoperator,
    hequals, hconversion, quoteAt?_space] at h ⊢
  refine ite_cut h (fun _ _ => rfl) fun _ h => ?_
  refine ite_cut h (fun _ _ => rfl) fun _ h => ?_
  refine ite_cut h (fun _ _ => rfl) fun _ h => ?_
  refine ite_cut h (fun _ _ => rfl) fun _ h => ?_
  refine ite_cut h (fun _ h => ?_) fun _ h => ite_cut h (fun _ _ => rfl) fun _ h => ?_
  · -- A comment goes on to the end of the line.
    obtain ⟨x, hx, hchars⟩ := hs
    have hx' : ∃ y ∈ s.head?, decide (y ≠ '\n') = true :=
      ⟨x, hx, by rcases hchars with rfl | rfl | rfl <;> decide⟩
    rw [← List.cons_append, ← List.cons_append, run_cut (by decide) hx' h]
  refine ite_cut h (fun _ h => ?_) fun _ h => ?_
  · split
    next quote hquoted =>
      rw [hquoted] at h
      refine ite_cut h (fun _ h => findQuote_cut hs hquoted ?_ s') fun _ _ => rfl
      have := run_le isNameChar (c :: m)
      simp only [run, List.length_cons] at this
      simp only [List.length_drop, List.length_cons]
      omega
    next => rfl
  refine ite_cut h (fun _ _ => rfl) fun _ h => ?_
  refine ite_cut h (fun _ _ => rfl) fun _ h => ?_
  refine ite_cut h (fun _ _ => rfl) fun _ h => ?_
  refine ite_cut h (fun _ _ => rfl) fun _ h => ?_
  split
  next quote hquoted =>
    rw [hquoted] at h
    have hcut := @findQuote_cut (c :: m) s hs frames [] quote hquoted (by simpa using h) s'
    simpa using hcut
  next => rfl

/-- The quote of a frame is one, and no space stands in it. -/
def Frame.Quoted : Frame → Prop
  | .formatted quote _ => quote ≠ [] ∧ ' ' ∉ quote
  | _ => True

variable {frames : List Frame}

theorem find_cut (quoted : ∀ f ∈ frames, f.Quoted) (hs : StartsOperator s) {c : Char}
    (h : (find frames c (m ++ ' ' :: s)).length ≤ m.length + 2) (s' : Text) :
    find frames c (m ++ ' ' :: s') = find frames c (m ++ ' ' :: s) := by
  cases frames with
  | nil => exact findCode_cut hs h s'
  | cons f outer =>
    cases f with
    | formatted quote raw =>
      exact findFormatted_cut hs (quoted _ List.mem_cons_self).2 h s'
    | format => rfl
    | bracket => exact findCode_cut hs h s'
    | field => exact findCode_cut hs h s'

theorem find_space (quoted : ∀ f ∈ frames, f.Quoted) (rest : Text) :
    find frames ' ' rest = ⟨1, none, frames⟩ := by
  cases frames with
  | nil => rfl
  | cons f outer =>
    cases f with
    | formatted quote raw =>
      obtain ⟨hne, hspace⟩ := quoted _ List.mem_cons_self
      have hstart := startsWith_space hspace [] rest
      have hnil := Text.startsWith_nil hne
      rw [List.nil_append, hnil] at hstart
      simp [find, findFormatted, hstart]
    | format => rfl
    | bracket => rfl
    | field => rfl

theorem ite_quoted {p : Prop} [Decidable p] {a b : Found} (ha : ∀ f ∈ a.frames, f.Quoted)
    (hb : ∀ f ∈ b.frames, f.Quoted) : ∀ f ∈ (if p then a else b).frames, f.Quoted := by
  split
  next => exact ha
  next => exact hb

theorem quoted_findQuote (quoted : ∀ f ∈ frames, f.Quoted) {mark quote text : Text} (rest : Text)
    (hquote : quoteAt? text = some quote) :
    ∀ f ∈ (findQuote frames mark quote rest).frames, f.Quoted := by
  obtain ⟨hne, -, hchars⟩ := quoteAt?_spec hquote
  refine ite_quoted (List.forall_mem_cons.mpr ⟨⟨hne, fun hspace => ?_⟩, quoted⟩) quoted
  rcases hchars ' ' hspace with h | h
  · exact absurd h (by decide)
  · exact absurd h (by decide)

theorem quoted_findCode (quoted : ∀ f ∈ frames, f.Quoted) (c : Char) (rest : Text) :
    ∀ f ∈ (findCode frames c rest).frames, f.Quoted := by
  have hcons {f : Frame} (hf : f.Quoted) : ∀ g ∈ f :: frames, g.Quoted :=
    List.forall_mem_cons.mpr ⟨hf, quoted⟩
  have hdrop : ∀ f ∈ frames.drop 1, f.Quoted := fun f hf => quoted f (List.mem_of_mem_drop hf)
  refine ite_quoted quoted (ite_quoted quoted (ite_quoted quoted (ite_quoted quoted
    (ite_quoted quoted (ite_quoted quoted (ite_quoted ?_
      (ite_quoted (hcons trivial) (ite_quoted hdrop (ite_quoted (hcons trivial)
        (ite_quoted quoted ?_))))))))))
  · dsimp only
    split
    next quote hquote => exact ite_quoted (quoted_findQuote quoted _ hquote) quoted
    next => exact quoted
  · split
    next quote hquote => exact quoted_findQuote quoted _ hquote
    next => exact quoted

theorem quoted_findFormatted {quote : Text} {raw : Bool} {outer : List Frame}
    (quoted : ∀ f ∈ Frame.formatted quote raw :: outer, f.Quoted) (c : Char) (rest : Text) :
    ∀ f ∈ (findFormatted quote raw outer c rest).frames, f.Quoted := by
  obtain ⟨-, houter⟩ := List.forall_mem_cons.mp quoted
  refine ite_quoted houter ?_
  split
  · exact quoted
  · exact quoted
  · exact List.forall_mem_cons.mpr ⟨trivial, quoted⟩
  · exact ite_quoted quoted quoted
  · exact quoted
  · exact quoted
  · exact quoted
  · exact ite_quoted houter quoted
  · exact quoted

theorem quoted_find (quoted : ∀ f ∈ frames, f.Quoted) (c : Char) (rest : Text) :
    ∀ f ∈ (find frames c rest).frames, f.Quoted := by
  cases frames with
  | nil => exact quoted_findCode quoted c rest
  | cons f outer =>
    cases f with
    | formatted quote raw => exact quoted_findFormatted quoted c rest
    | format =>
      obtain ⟨-, houter⟩ := List.forall_mem_cons.mp quoted
      exact ite_quoted (List.forall_mem_cons.mpr ⟨trivial, quoted⟩)
        (ite_quoted (fun f hf => houter f (List.mem_of_mem_drop hf)) quoted)
    | bracket => exact quoted_findCode quoted c rest
    | field => exact quoted_findCode quoted c rest

theorem take_space {n : Nat} (h : n ≤ m.length + 1) (s s' : Text) :
    (m ++ ' ' :: s').take n = (m ++ ' ' :: s).take n := by
  have hspace (s : Text) : m ++ ' ' :: s = (m ++ [' ']) ++ s := by simp
  have hlength : n ≤ (m ++ [' ']).length := by simpa using h
  rw [hspace, hspace s, List.take_append_of_le_length hlength,
    List.take_append_of_le_length hlength]

/-- What a token is found in takes no more than what stands before a token after it. -/
theorem pending_le_of_mem_scan {pending offset : Nat} {t : Token}
    (h : t ∈ scan frames pending offset (m ++ s))
    (hstart : t.start = offset + Text.byteSize m) : pending ≤ m.length := by
  obtain ⟨before, after, htext, hlength, ht, -⟩ := mem_scan h
  have hbefore : before = m := by
    rw [List.append_assoc] at htext
    exact Text.eq_of_byteSize_eq htext.symm (by omega)
  rwa [← hbefore]

/-- Where a token starts right after a space, what is found before it depends neither on that token
nor on what follows. -/
theorem scan_cut (quoted : ∀ f ∈ frames, f.Quoted) (hs : StartsOperator s) {u : Text}
    {pending offset : Nat} {t : Token} (h : t ∈ scan frames pending offset (u ++ ' ' :: s))
    (hstart : t.start = offset + Text.byteSize (u ++ [' '])) :
    ∃ early inner, (∀ f ∈ inner, f.Quoted) ∧
      t ∈ scan inner 0 (offset + Text.byteSize (u ++ [' '])) s ∧
      ∀ s', scan frames pending offset (u ++ ' ' :: s') =
        early ++ scan inner 0 (offset + Text.byteSize (u ++ [' '])) s' := by
  have hspace (u s : Text) : u ++ ' ' :: s = (u ++ [' ']) ++ s := by simp
  induction u generalizing frames pending offset with
  | nil =>
    have hpending := pending_le_of_mem_scan (m := [' ']) h hstart
    have hscan (s' : Text) : scan frames pending offset ([] ++ ' ' :: s') =
        scan frames 0 (offset + Text.byteSize ([] ++ [' '])) s' := by
      cases pending with
      | zero =>
        simp only [List.nil_append, scan, find_space quoted]
        rfl
      | succ k =>
        cases (show k = 0 by simpa using hpending)
        rfl
    exact ⟨[], frames, quoted, hscan s ▸ h, hscan⟩
  | cons c u ih =>
    have hsize : Text.byteSize (c :: u ++ [' ']) = c.utf8Size + Text.byteSize (u ++ [' ']) := rfl
    cases pending with
    | succ k =>
      have hfurther : t ∈ scan frames k (offset + c.utf8Size) (u ++ ' ' :: s) := by
        simpa [scan] using h
      obtain ⟨early, inner, hinner, hmem, hscan⟩ :=
        ih quoted hfurther (by rw [hstart, hsize]; omega)
      rw [hsize, ← Nat.add_assoc]
      exact ⟨early, inner, hinner, hmem, fun s' => (hscan s').symm ▸ rfl⟩
    | zero =>
      have hc := c.utf8Size_pos
      -- The token is found after what is found here, which therefore ends before it.
      have hfurther : t ∈ scan (find frames c (u ++ ' ' :: s)).frames
          ((find frames c (u ++ ' ' :: s)).length - 1) (offset + c.utf8Size) (u ++ ' ' :: s) := by
        simp only [List.cons_append, scan] at h
        split at h
        next => exact h
        next =>
          rcases List.mem_cons.mp h with rfl | h
          · dsimp only at hstart
            omega
          · exact h
      have hstart' : t.start = offset + c.utf8Size + Text.byteSize (u ++ [' ']) := by
        rw [hstart, hsize]
        omega
      have hlength : (find frames c (u ++ ' ' :: s)).length ≤ u.length + 2 := by
        rw [hspace u s] at hfurther
        have := pending_le_of_mem_scan hfurther hstart'
        rw [← hspace, List.length_append, List.length_singleton] at this
        omega
      obtain ⟨early, inner, hinner, hmem, hscan⟩ :=
        ih (quoted_find quoted c (u ++ ' ' :: s)) hfurther hstart'
      have hfind := find_cut quoted hs hlength
      have htake (s' : Text) : (c :: (u ++ ' ' :: s')).take (find frames c (u ++ ' ' :: s)).length =
          (c :: (u ++ ' ' :: s)).take (find frames c (u ++ ' ' :: s)).length :=
        take_space (m := c :: u) (by simpa using hlength) s s'
      rw [hsize, ← Nat.add_assoc]
      simp only [List.cons_append, scan, hfind, hscan, htake]
      cases (find frames c (u ++ ' ' :: s)).kind with
      | none => exact ⟨early, inner, hinner, hmem, fun s' => rfl⟩
      | some kind => exact ⟨_ :: early, inner, hinner, hmem, fun s' => rfl⟩

/-- The token moved by some bytes. -/
def moved (n : Nat) (t : Token) : Token := { t with start := t.start + n, stop := t.stop + n }

theorem scan_add (pending offset n : Nat) (text : Text) :
    scan frames pending (offset + n) text = (scan frames pending offset text).map (moved n) := by
  fun_induction scan frames pending offset text with
  | case1 => rfl
  | case2 frames offset c rest k ih => rw [scan, ← ih, Nat.add_right_comm]
  | case3 frames offset c rest found further hkind ih =>
    rw [Nat.add_right_comm] at ih
    simp only [scan, show (find frames c rest).kind = none from hkind]
    exact ih
  | case4 frames offset c rest found further kind hkind text ih =>
    rw [Nat.add_right_comm] at ih
    simp only [scan, show (find frames c rest).kind = some kind from hkind, List.map_cons, moved]
    rw [show offset + n + Text.byteSize ((c :: rest).take (find frames c rest).length) =
      offset + Text.byteSize text + n from Nat.add_right_comm ..]
    exact congrArg (List.cons _) ih

/-- The text stands in code. -/
def InCode : List Frame → Prop
  | .formatted .. :: _ | .format :: _ => False
  | _ => True

theorem find_of_inCode (code : InCode frames) (c : Char) (rest : Text) :
    find frames c rest = findCode frames c rest := by
  cases frames with
  | nil => rfl
  | cons f outer =>
    cases f with
    | formatted quote raw => exact code.elim
    | format => exact code.elim
    | bracket => rfl
    | field => rfl

/-- Operators are found in code only. -/
theorem inCode_of_operator {c : Char} {rest : Text}
    (h : (find frames c rest).kind = some .operator) : InCode frames := by
  cases frames with
  | nil => trivial
  | cons f outer =>
    cases f with
    | formatted quote raw =>
      simp only [find, findFormatted] at h
      split at h
      · cases h
      · split at h
        all_goals first | cases h | (split at h <;> cases h)
    | format =>
      simp only [find, findFormat] at h
      split at h
      · cases h
      · split at h
        · cases h
        · cases h
    | bracket => trivial
    | field => trivial

/-- A token that starts where a scan starts is found there. -/
theorem find_of_mem_scan {offset : Nat} {c : Char} {rest : Text} {t : Token}
    (h : t ∈ scan frames 0 offset (c :: rest)) (hstart : t.start = offset) :
    (find frames c rest).kind = some t.kind := by
  have hc := c.utf8Size_pos
  have hlater : ∀ t ∈ scan (find frames c rest).frames ((find frames c rest).length - 1)
      (offset + c.utf8Size) rest, t.start ≠ offset := by
    intro t ht
    obtain ⟨before, after, -, -, hstart, -⟩ := mem_scan ht
    omega
  simp only [scan] at h
  split at h
  next => exact absurd hstart (hlater t h)
  next kind hkind =>
    rcases List.mem_cons.mp h with rfl | h
    · exact hkind
    · exact absurd hstart (hlater t h)

theorem scan_equal (code : InCode frames) (offset : Nat) (rest : Text) :
    scan frames 0 offset ("==".toList ++ ' ' :: rest) =
      ⟨.operator, "==".toList, offset, offset + 2⟩ :: scan frames 0 (offset + 2) (' ' :: rest) := by
  have hfind : find frames '=' ('=' :: ' ' :: rest) = ⟨2, some .operator, frames⟩ := by
    rw [find_of_inCode code]
    simp [findCode, Text.startsWith, List.isPrefixOf, isNameChar, quoteAt?, operator, longOperators]
  show scan frames 0 offset ('=' :: '=' :: ' ' :: rest) = _
  rw [scan]
  simp only [hfind]
  rfl

theorem scan_unequal (code : InCode frames) (offset : Nat) (rest : Text) :
    scan frames 0 offset ("!=".toList ++ ' ' :: rest) =
      ⟨.operator, "!=".toList, offset, offset + 2⟩ :: scan frames 0 (offset + 2) (' ' :: rest) := by
  have hfind : find frames '!' ('=' :: ' ' :: rest) = ⟨2, some .operator, frames⟩ := by
    rw [find_of_inCode code]
    simp [findCode, Text.startsWith, List.isPrefixOf, isNameChar, quoteAt?, operator, longOperators]
  show scan frames 0 offset ('!' :: '=' :: ' ' :: rest) = _
  rw [scan]
  simp only [hfind]
  rfl

/-- A name of letters is read up to the space after it. -/
theorem scan_is (code : InCode frames) (offset : Nat) (rest : Text) :
    scan frames 0 offset ("is".toList ++ ' ' :: rest) =
      ⟨.name, "is".toList, offset, offset + 2⟩ :: scan frames 0 (offset + 2) (' ' :: rest) := by
  have hfind : find frames 'i' ('s' :: ' ' :: rest) = ⟨2, some .name, frames⟩ := by
    rw [find_of_inCode code]
    simp [findCode, Text.startsWith, List.isPrefixOf, isNameChar, quoteAt?]
  show scan frames 0 offset ('i' :: 's' :: ' ' :: rest) = _
  rw [scan]
  simp only [hfind]
  rfl

theorem scan_is_not (code : InCode frames) (quoted : ∀ f ∈ frames, f.Quoted) (offset : Nat)
    (rest : Text) : scan frames 0 offset ("is not".toList ++ ' ' :: rest) =
      ⟨.name, "is".toList, offset, offset + 2⟩ ::
        ⟨.name, "not".toList, offset + 3, offset + 6⟩ ::
        scan frames 0 (offset + 6) (' ' :: rest) := by
  have hfind : find frames 'n' ('o' :: 't' :: ' ' :: rest) = ⟨3, some .name, frames⟩ := by
    rw [find_of_inCode code]
    simp [findCode, Text.startsWith, List.isPrefixOf, isNameChar, quoteAt?]
  show scan frames 0 offset ("is".toList ++ ' ' :: 'n' :: 'o' :: 't' :: ' ' :: rest) = _
  rw [scan_is code, scan]
  simp only [find_space quoted]
  rw [scan]
  simp only [hfind]
  rfl

end Token

end StyleRules
