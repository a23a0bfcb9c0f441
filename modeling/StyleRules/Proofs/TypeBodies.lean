import StyleRules.Proofs.Declarations

namespace StyleRules

namespace WeakDelegate

def moved (cut offset : Nat) : Nat := if offset < cut then offset else offset + 5

/-- Where the start of a block is once "weak" stands at a cut. A block that starts at the cut
starts before the word. -/
def movedStart (cut start : Nat) : Nat := if start ≤ cut then start else start + 5

/-- Where a scope is once "weak" stands at a cut. -/
def movedScope (cut : Nat) (scope : Nat × Nat) : Nat × Nat :=
  (movedStart cut scope.1, moved cut scope.2)

theorem moved_lt_iff (cut a b : Nat) : moved cut a < moved cut b ↔ a < b := by
  unfold moved
  split
  · split
    · rfl
    · omega
  · split
    · omega
    · omega

theorem movedStart_lt_iff (cut a b : Nat) : movedStart cut a < movedStart cut b ↔ a < b := by
  unfold movedStart
  split
  · split
    · rfl
    · omega
  · split
    · omega
    · omega

theorem movedStart_le_moved_iff (cut a b : Nat) : movedStart cut a ≤ moved cut b ↔ a ≤ b := by
  unfold movedStart moved
  split
  · split
    · rfl
    · omega
  · split
    · omega
    · omega

theorem pieces_ne_nil (text : Text) : pieces text ≠ [] := by
  unfold pieces
  split
  · simp
  · split
    · simp
    · split
      · simp
      · simp

theorem exists_last_piece (text : Text) : ∃ early last, pieces text = early ++ [last] ∧
    last <:+ text ∧ (early = [] → last = text) := by
  induction text with
  | nil => exact ⟨[], [], rfl, List.suffix_refl [], fun _ => rfl⟩
  | cons c text ih =>
    obtain ⟨early, last, hpieces, hs, hwhole⟩ := ih
    have hlater := hs.trans (List.suffix_cons c text)
    rw [pieces, hpieces]
    split
    · exact ⟨[] :: early, last, rfl, hlater, fun h => absurd h (List.cons_ne_nil _ _)⟩
    · cases early with
      | nil =>
        have hc : c :: last = c :: text := by rw [hwhole rfl]
        exact ⟨[], c :: last, rfl, hc ▸ List.suffix_refl _, fun _ => hc⟩
      | cons piece early =>
        exact ⟨(c :: piece) :: early, last, rfl, hlater, fun h => absurd h (List.cons_ne_nil _ _)⟩

/-- Where two texts meet, the last piece of the first and the first piece of the second become
one. -/
theorem pieces_append {a b last first : Text} {early late : List Text}
    (ha : pieces a = early ++ [last]) (hb : pieces b = first :: late) :
    pieces (a ++ b) = early ++ (last ++ first) :: late := by
  induction a generalizing early last with
  | nil =>
    cases early with
    | nil =>
      cases (List.cons.inj ha).1
      exact hb
    | cons piece early => simp [pieces] at ha
  | cons c a ih =>
    rw [pieces] at ha
    rw [List.cons_append, pieces]
    split at ha
    next hc =>
      obtain ⟨more, rfl, hpieces⟩ := Text.eq_cons_of_append_singleton (pieces_ne_nil a) ha
      rw [if_pos hc, ih hpieces]
      rfl
    next hc =>
      rw [if_neg hc]
      cases hpieces : pieces a with
      | nil => exact absurd hpieces (pieces_ne_nil a)
      | cons piece more =>
        rw [hpieces] at ha
        by_cases hnil : more = []
        · subst hnil
          obtain ⟨rfl, rfl⟩ := Text.eq_nil_of_append_singleton ha
          rw [@ih piece [] hpieces]
          rfl
        · obtain ⟨further, rfl, hmore⟩ := Text.eq_cons_of_append_singleton hnil ha
          rw [@ih last (piece :: further) (by rw [hpieces, hmore]; rfl)]
          rfl

theorem pieces_weak {first : Text} {late : List Text} {text : Text}
    (h : pieces text = first :: late) :
    pieces ("weak ".toList ++ text) = ("weak ".toList ++ first) :: late := by
  have hweak : pieces "weak ".toList = [] ++ ["weak ".toList] := by decide
  exact pieces_append hweak h

theorem atBoundary_weak : Text.AtBoundary "weak ".toList :=
  Text.atBoundary_concat ['w', 'e', 'a', 'k'] (by decide)

theorem words_weak (text : Text) :
    Text.words ("weak ".toList ++ text) = "weak".toList :: Text.words text := by
  have hweak : Text.words "weak ".toList = ["weak".toList] := by decide
  rw [Text.words_append text atBoundary_weak, hweak]
  rfl

theorem StartsWord.exists_first {text : Text} (h : StartsWord text) :
    ∃ first late, pieces text = first :: late ∧ first.any (!Text.isBlank ·) = true := by
  obtain ⟨x, rest, rfl, hx⟩ := h
  have hboundary : Text.isLineBoundary x = false := by rcases hx with rfl | rfl <;> decide
  have hblank : Text.isBlank x = false := by rcases hx with rfl | rfl <;> decide
  obtain ⟨piece, more, hpieces⟩ := List.exists_cons_of_ne_nil (pieces_ne_nil rest)
  refine ⟨x :: piece, more, ?_, by simp [hblank]⟩
  rw [pieces, hpieces]
  simp [hboundary]

/-- The last line of a header that is not blank: where one text follows another that ends on the
same line, it is the line where they meet unless a later line is not blank. -/
theorem headerWords_append {a b last first : Text} {early late : List Text}
    (ha : pieces a = early ++ [last]) (hb : pieces b = first :: late)
    (hfirst : first.any (!Text.isBlank ·) = true) :
    headerWords (a ++ b) =
      (((Text.words ((late.filter fun line => line.any (!Text.isBlank ·)).getLastD
        (last ++ first))).map fun word => word.dropWhile (!startsKeyword ·)).filter (· ≠ [])) := by
  have hmeet : (last ++ first).any (!Text.isBlank ·) = true := by
    rw [List.any_append, hfirst, Bool.or_true]
  unfold headerWords
  rw [pieces_append ha hb, List.filter_append, List.filter_cons_of_pos (by simpa using hmeet)]
  simp [List.getLastD_eq_getLast?, List.getLast?_append, List.getLast?_cons]

/-- A header that loses no word declares what it declared, and "weak" says nothing about that. -/
theorem declaresType_weak {before after : Text} (hb : Text.AtBoundary before)
    (ha : StartsWord after) :
    declaresType (before ++ ("weak ".toList ++ after)) = declaresType (before ++ after) := by
  obtain ⟨early, last, hearly, hs, -⟩ := exists_last_piece before
  obtain ⟨first, late, hlate, hfirst⟩ := ha.exists_first
  have hlast : Text.AtBoundary last := hb.of_suffix hs
  have hweak : ("weak ".toList ++ first).any (!Text.isBlank ·) = true := by
    rw [List.any_append, hfirst, Bool.or_true]
  have hkeyword : ("weak".toList.dropWhile (!startsKeyword ·)) = "weak".toList := by decide
  have htype : ¬("weak".toList ∈ typeKeywords) := by decide
  have hbody : ¬("weak".toList ∈ bodyKeywords) := by decide
  unfold declaresType
  rw [headerWords_append hearly hlate hfirst, headerWords_append hearly (pieces_weak hlate) hweak]
  cases hlater : late.filter fun line => line.any (!Text.isBlank ·) with
  | cons line more => simp [List.getLastD_eq_getLast?, List.getLast?_cons]
  | nil =>
    simp only [List.getLastD_nil, Text.words_append _ hlast, words_weak, List.map_append,
      List.map_cons, List.filter_append, hkeyword]
    rw [List.filter_cons_of_pos (by decide)]
    simp only [List.any_append, List.any_cons, decide_eq_false htype, decide_eq_false hbody,
      Bool.false_or]

namespace Blocks

theorem readFrom_append (b : Blocks) (offset : Nat) (first second : Text) :
    readFrom b offset (first ++ second) =
      readFrom (readFrom b offset first) (offset + first.length) second := by
  induction first generalizing b offset with
  | nil => rfl
  | cons c first ih =>
    have hlen : offset + (c :: first).length = offset + 1 + first.length := by
      simp only [List.length_cons]; omega
    rw [List.cons_append, readFrom, ih, readFrom, hlen]

/-- What blocks have in common that were read up to an offset: they lie before it, and the header
is the end of what was read. -/
structure ReadUpTo (b : Blocks) (offset : Nat) (text : Text) : Prop where
  header : b.header.reverse <:+ text
  stack : ∀ block ∈ b.stack, block.1 ≤ offset
  scopes : ∀ scope ∈ b.scopes, scope.1 ≤ offset ∧ scope.2 < offset

theorem read_readUpTo {b : Blocks} {offset : Nat} {text : Text} (h : b.ReadUpTo offset text)
    (c : Char) : (b.read offset c).ReadUpTo (offset + 1) (text ++ [c]) := by
  have hempty : ([] : Text).reverse <:+ text ++ [c] := List.nil_suffix
  have hstack : ∀ block ∈ b.stack, block.1 ≤ offset + 1 :=
    fun block hb => Nat.le_succ_of_le (h.stack block hb)
  have hscopes : ∀ scope ∈ b.scopes, scope.1 ≤ offset + 1 ∧ scope.2 < offset + 1 := by
    intro scope hs
    have := h.scopes scope hs
    omega
  unfold read
  split
  · refine ⟨hempty, ?_, hscopes⟩
    intro block hb
    rcases List.mem_cons.mp hb with rfl | hb
    · exact Nat.le_refl _
    · exact hstack block hb
  · split
    · split
      next start isType stack hb =>
        have htop := h.stack (start, isType) (by rw [hb]; simp)
        refine ⟨hempty, ?_, ?_⟩
        · intro block hm
          exact hstack block (by rw [hb]; exact List.mem_cons_of_mem _ hm)
        · intro scope hm
          dsimp only at hm
          split at hm
          · rcases List.mem_cons.mp hm with rfl | hm
            · dsimp only at htop ⊢
              omega
            · exact hscopes scope hm
          · exact hscopes scope hm
      next => exact ⟨hempty, hstack, hscopes⟩
    · split
      · exact ⟨hempty, hstack, hscopes⟩
      · obtain ⟨before, hbefore⟩ := h.header
        refine ⟨⟨before, ?_⟩, hstack, hscopes⟩
        rw [← hbefore]
        simp

theorem readFrom_readUpTo {b : Blocks} {offset : Nat} {text : Text} (h : b.ReadUpTo offset text)
    (more : Text) : (b.readFrom offset more).ReadUpTo (offset + more.length) (text ++ more) := by
  induction more generalizing b offset text with
  | nil => simpa [readFrom] using h
  | cons c more ih =>
    have hnext := ih (read_readUpTo h c)
    have hlen : offset + (c :: more).length = offset + 1 + more.length := by
      simp only [List.length_cons]; omega
    rw [readFrom, hlen]
    simpa using hnext

/-- Blocks of code, and the blocks of the same code with "weak" put in at a cut: while the header
reaches back over the cut, it has the word in it. -/
structure Weakened (cut : Nat) (b b' : Blocks) : Prop where
  header : b'.header = b.header ∨ ∃ before after, Text.AtBoundary before ∧ StartsWord after ∧
    b.header.reverse = before ++ after ∧ b'.header.reverse = before ++ ("weak ".toList ++ after)
  stack : b'.stack = b.stack.map fun block => (movedStart cut block.1, block.2)
  scopes : b'.scopes = b.scopes.map (movedScope cut)

theorem Weakened.declaresType {cut : Nat} {b b' : Blocks} (h : Weakened cut b b') :
    declaresType b'.header.reverse = declaresType b.header.reverse := by
  rcases h.header with heq | ⟨before, after, hb, ha, heq, heq'⟩
  · rw [heq]
  · rw [heq, heq', declaresType_weak hb ha]

/-- One character read behind the cut keeps blocks related. -/
theorem read_weakened {cut offset : Nat} {b b' : Blocks} (h : Weakened cut b b')
    (ho : cut ≤ offset) (c : Char) : Weakened cut (b.read offset c) (b'.read (offset + 5) c) := by
  have hstart : movedStart cut (offset + 1) = offset + 5 + 1 := by
    unfold movedStart
    split
    · omega
    · rfl
  have hstop : moved cut offset = offset + 5 := if_neg (by omega)
  unfold read
  split
  · refine ⟨Or.inl rfl, ?_, h.scopes⟩
    rw [h.declaresType, h.stack, List.map_cons, hstart]
  · split
    · cases hb : b.stack with
      | nil =>
        have hb' : b'.stack = [] := by rw [h.stack, hb]; rfl
        rw [hb']
        exact ⟨Or.inl rfl, rfl, h.scopes⟩
      | cons block stack =>
        obtain ⟨start, isType⟩ := block
        have hb' : b'.stack = (movedStart cut start, isType) ::
            stack.map fun block => (movedStart cut block.1, block.2) := by rw [h.stack, hb]; rfl
        rw [hb']
        refine ⟨Or.inl rfl, rfl, ?_⟩
        cases isType with
        | false => exact h.scopes
        | true => simp [h.scopes, movedScope, hstop]
    · split
      · exact ⟨Or.inl rfl, h.stack, h.scopes⟩
      · refine ⟨?_, h.stack, h.scopes⟩
        rcases h.header with heq | ⟨before, after, hb, ha, heq, heq'⟩
        · exact Or.inl (by rw [heq])
        · obtain ⟨x, rest, rfl, hx⟩ := ha
          refine Or.inr ⟨before, x :: (rest ++ [c]), hb, ⟨x, _, rfl, hx⟩, ?_, ?_⟩
          · simp [heq]
          · simp [heq']

theorem readFrom_weakened {cut offset : Nat} {b b' : Blocks} (h : Weakened cut b b')
    (ho : cut ≤ offset) (text : Text) :
    Weakened cut (b.readFrom offset text) (b'.readFrom (offset + 5) text) := by
  induction text generalizing b b' offset with
  | nil => exact h
  | cons c text ih =>
    have hnext := ih (read_weakened h ho c) (Nat.le_succ_of_le ho)
    rw [readFrom, readFrom, Nat.add_right_comm]
    exact hnext

theorem read_initial {x : Char} (b : Blocks) (offset : Nat) (hx : x = 'v' ∨ x = 'w') :
    b.read offset x = { b with header := x :: b.header } := by
  rcases hx with rfl | rfl <;> rfl

theorem readFrom_weak (b : Blocks) (offset : Nat) (text : Text) :
    b.readFrom offset ("weak ".toList ++ text) =
      readFrom { b with header := "weak ".toList.reverse ++ b.header } (offset + 5) text := by
  rw [readFrom_append]
  rfl

theorem readFrom_cut {before after : Text} (hb : Text.AtBoundary before) (ha : StartsWord after)
    {b : Blocks} (h : b.ReadUpTo before.length before) :
    Weakened before.length (b.readFrom before.length after)
      (b.readFrom before.length ("weak ".toList ++ after)) := by
  obtain ⟨x, rest, rfl, hx⟩ := ha
  have hstart : Weakened before.length (b.read before.length x)
      (read { b with header := "weak ".toList.reverse ++ b.header } (before.length + 5) x) := by
    rw [read_initial _ _ hx, read_initial _ _ hx]
    refine ⟨Or.inr ⟨b.header.reverse, [x], hb.of_suffix h.header, ⟨x, [], rfl, hx⟩, ?_, ?_⟩,
      ?_, ?_⟩
    · simp
    · simp
    · have hsame : ∀ block ∈ b.stack, (fun block : Nat × Bool =>
          (movedStart before.length block.1, block.2)) block = id block :=
        fun block hm => Prod.ext (if_pos (h.stack block hm)) rfl
      exact ((List.map_congr_left hsame).trans (List.map_id _)).symm
    · have hsame : ∀ scope ∈ b.scopes, movedScope before.length scope = id scope :=
        fun scope hm => Prod.ext (if_pos (h.scopes scope hm).1) (if_pos (h.scopes scope hm).2)
      exact ((List.map_congr_left hsame).trans (List.map_id _)).symm
  rw [readFrom_weak, readFrom, readFrom, Nat.add_right_comm]
  exact readFrom_weakened hstart (Nat.le_succ _) rest

end Blocks

/-- The bodies of types once a declaration is made weak. -/
theorem scopes_weakened {before after : Text} (hb : Text.AtBoundary before)
    (ha : StartsWord after) :
    scopes (before ++ ("weak ".toList ++ after)) =
      (scopes (before ++ after)).map (movedScope before.length) := by
  have hread : (Blocks.readFrom { header := [], stack := [], scopes := [] } 0 before).ReadUpTo
      before.length before := by
    have hempty : Blocks.ReadUpTo { header := [], stack := [], scopes := [] } 0 [] :=
      ⟨List.nil_suffix, by simp, by simp⟩
    simpa using Blocks.readFrom_readUpTo hempty before
  have h := Blocks.readFrom_cut hb ha hread
  unfold scopes
  rw [Blocks.readFrom_append _ _ before ("weak ".toList ++ after),
    Blocks.readFrom_append _ _ before after, Nat.zero_add, h.scopes, List.map_reverse]

/-- The one of two scopes that starts later, the first if neither does. -/
def laterOf (best : Option (Nat × Nat)) (scope : Nat × Nat) : Option (Nat × Nat) :=
  match best with
  | some b => if b.1 < scope.1 then some scope else some b
  | none => some scope

theorem innermost?_eq (scopes : List (Nat × Nat)) (offset : Nat) :
    innermost? scopes offset =
      (scopes.filter fun s => s.1 ≤ offset && offset < s.2).foldl laterOf none := rfl

theorem foldl_laterOf_mem {found : List (Nat × Nat)} {best : Option (Nat × Nat)}
    {scope : Nat × Nat} (h : found.foldl laterOf best = some scope) :
    scope ∈ found ∨ best = some scope := by
  induction found generalizing best with
  | nil => exact Or.inr h
  | cons s found ih =>
    rcases ih h with hm | hb
    · exact Or.inl (List.mem_cons_of_mem s hm)
    · unfold laterOf at hb
      split at hb
      · split at hb
        · cases Option.some.inj hb
          exact Or.inl (by simp)
        · exact Or.inr hb
      · cases Option.some.inj hb
        exact Or.inl (by simp)

theorem foldl_laterOf_moved (cut : Nat) (found : List (Nat × Nat)) (best : Option (Nat × Nat)) :
    (found.map (movedScope cut)).foldl laterOf (best.map (movedScope cut)) =
      (found.foldl laterOf best).map (movedScope cut) := by
  induction found generalizing best with
  | nil => rfl
  | cons s found ih =>
    rw [List.map_cons, List.foldl_cons, List.foldl_cons, ← ih]
    congr 1
    cases best with
    | none => rfl
    | some b =>
      have hlt := movedStart_lt_iff cut b.1 s.1
      simp only [Option.map_some, laterOf, movedScope, hlt]
      split
      · rfl
      · rfl

theorem innermost?_start_le {scopes : List (Nat × Nat)} {offset : Nat} {scope : Nat × Nat}
    (h : innermost? scopes offset = some scope) : scope.1 ≤ offset := by
  rw [innermost?_eq] at h
  rcases foldl_laterOf_mem h with hm | hb
  · have hholds := (List.mem_filter.mp hm).2
    simp only [Bool.and_eq_true, decide_eq_true_eq] at hholds
    exact hholds.1
  · cases hb

theorem innermost?_moved (cut : Nat) (scopes : List (Nat × Nat)) (offset : Nat) :
    innermost? (scopes.map (movedScope cut)) (moved cut offset) =
      (innermost? scopes offset).map (movedScope cut) := by
  have hfilter : (scopes.map (movedScope cut)).filter
      (fun s => s.1 ≤ moved cut offset && moved cut offset < s.2) =
      (scopes.filter fun s => s.1 ≤ offset && offset < s.2).map (movedScope cut) := by
    rw [List.filter_map]
    congr 1
    apply List.filter_congr
    intro s _
    simp only [Function.comp_apply, movedScope, movedStart_le_moved_iff, moved_lt_iff]
  rw [innermost?_eq, innermost?_eq, hfilter]
  exact foldl_laterOf_moved cut _ none

theorem depth_append (a b : Text) : depth (a ++ b) = depth a + depth b := by
  have hfrom : ∀ (code : Text) (start : Int),
      code.foldl (fun d c => if c = '{' then d + 1 else if c = '}' then d - 1 else d) start =
        start + depth code := by
    intro code
    induction code with
    | nil => intro start; simp [depth]
    | cons c code ih =>
      intro start
      unfold depth
      rw [List.foldl_cons, List.foldl_cons, ih, ih]
      split
      · omega
      · split
        · omega
        · omega
  unfold depth
  rw [List.foldl_append, hfrom]
  rfl

/-- The depth within a block is what the depth of the code has grown since its start. -/
theorem depth_between {code : Text} {start offset : Nat} (h : start ≤ offset) :
    depth ((code.drop start).take (offset - start)) =
      depth (code.take offset) - depth (code.take start) := by
  have hsplit : code.take offset = code.take start ++ (code.drop start).take (offset - start) := by
    rw [← List.take_add, Nat.add_sub_cancel' h]
  rw [hsplit, depth_append]
  omega

theorem take_weak_of_le {before : Text} (after : Text) {n : Nat} (h : n ≤ before.length) :
    (before ++ ("weak ".toList ++ after)).take n = (before ++ after).take n := by
  rw [List.take_append_of_le_length h, List.take_append_of_le_length h]

theorem take_weak_add (before after : Text) (n : Nat) :
    (before ++ ("weak ".toList ++ after)).take (before.length + n + 5) =
      before ++ ("weak ".toList ++ after.take n) := by
  have hlength : "weak ".toList.length = 5 := by decide
  rw [Nat.add_assoc, List.take_length_add_append, Nat.add_comm n 5, ← hlength,
    List.take_length_add_append]

theorem depth_weak (before after : Text) :
    depth (before ++ ("weak ".toList ++ after)) = depth (before ++ after) := by
  have hweak : depth "weak ".toList = 0 := by decide
  rw [depth_append, depth_append, hweak, depth_append]
  omega

theorem depth_take_moved (before after : Text) (offset : Nat) :
    depth ((before ++ ("weak ".toList ++ after)).take (moved before.length offset)) =
      depth ((before ++ after).take offset) := by
  unfold moved
  split
  next h => rw [take_weak_of_le after (Nat.le_of_lt h)]
  next h =>
    obtain ⟨n, rfl⟩ := Nat.exists_eq_add_of_le (Nat.le_of_not_lt h)
    rw [take_weak_add, depth_weak, List.take_length_add_append]

theorem depth_take_movedStart (before after : Text) (start : Nat) :
    depth ((before ++ ("weak ".toList ++ after)).take (movedStart before.length start)) =
      depth ((before ++ after).take start) := by
  unfold movedStart
  split
  next h => rw [take_weak_of_le after h]
  next h =>
    have hmoved := depth_take_moved before after start
    rwa [moved, if_neg (by omega)] at hmoved

/-- Whether an offset lies directly in the body of a type does not change either. -/
theorem inTypeBody_moved {before after : Text} (hb : Text.AtBoundary before)
    (ha : StartsWord after) (offset : Nat) :
    inTypeBody (before ++ ("weak ".toList ++ after))
        (scopes (before ++ ("weak ".toList ++ after))) (moved before.length offset) =
      inTypeBody (before ++ after) (scopes (before ++ after)) offset := by
  rw [scopes_weakened hb ha]
  unfold inTypeBody
  rw [innermost?_moved]
  cases hs : innermost? (scopes (before ++ after)) offset with
  | none => rfl
  | some scope =>
    have hle := innermost?_start_le hs
    have hle' := (movedStart_le_moved_iff before.length scope.1 offset).mpr hle
    simp only [Option.map_some, isNested, movedScope]
    rw [depth_between hle, depth_between hle', depth_take_moved, depth_take_movedStart]

end WeakDelegate

end StyleRules
