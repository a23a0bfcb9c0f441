import StyleRules.Proofs.Spans
import StyleRules.SyntaxTree.Comparison
import StyleRules.Rule.NoneComparison

namespace StyleRules

namespace Token

/-- A token found by a scan stands in the text, after the characters passed over at the start. -/
theorem mem_scan {frames : List Frame} {pending offset : Nat} {text : Text} {t : Token}
    (h : t ∈ scan frames pending offset text) :
    ∃ before after, text = before ++ t.text ++ after ∧ pending ≤ before.length ∧
      t.start = offset + Text.byteSize before ∧
      t.stop = offset + Text.byteSize (before ++ t.text) := by
  fun_induction scan frames pending offset text with
  | case1 => cases h
  | case2 frames offset c rest k ih =>
    obtain ⟨before, after, rfl, hlength, hstart, hstop⟩ := ih h
    refine ⟨c :: before, after, rfl, by simpa using hlength, ?_, ?_⟩
    · rw [hstart, Text.byteSize, Nat.add_assoc]
    · rw [hstop, List.cons_append, Text.byteSize, Nat.add_assoc]
  | case3 frames offset c rest found further hkind ih =>
    obtain ⟨before, after, rfl, hlength, hstart, hstop⟩ := ih h
    refine ⟨c :: before, after, rfl, Nat.zero_le _, ?_, ?_⟩
    · rw [hstart, Text.byteSize, Nat.add_assoc]
    · rw [hstop, List.cons_append, Text.byteSize, Nat.add_assoc]
  | case4 frames offset c rest found further kind hkind text ih =>
    rcases List.mem_cons.mp h with rfl | h
    · exact ⟨[], (c :: rest).drop found.length, (List.take_append_drop _ _).symm, Nat.zero_le _,
        rfl, rfl⟩
    · obtain ⟨before, after, rfl, hlength, hstart, hstop⟩ := ih h
      refine ⟨c :: before, after, rfl, Nat.zero_le _, ?_, ?_⟩
      · rw [hstart, Text.byteSize, Nat.add_assoc]
      · rw [hstop, List.cons_append, Text.byteSize, Nat.add_assoc]

theorem scan_ascending (frames : List Frame) (pending offset : Nat) (text : Text) :
    (scan frames pending offset text).Pairwise (·.stop ≤ ·.start) := by
  fun_induction scan frames pending offset text with
  | case1 => exact List.Pairwise.nil
  | case2 frames offset c rest k ih => exact ih
  | case3 frames offset c rest found further hkind ih => exact ih
  | case4 frames offset c rest found further kind hkind text ih =>
    refine List.pairwise_cons.mpr ⟨fun t ht => ?_, ih⟩
    obtain ⟨before, after, hrest, hlength, hstart, -⟩ := mem_scan ht
    -- The scan goes on after the characters of this token.
    have htaken : text <+: c :: before := by
      apply List.prefix_of_prefix_length_le (List.take_prefix found.length (c :: rest))
      · exact ⟨t.text ++ after, by rw [hrest]; simp⟩
      · simp only [List.length_take, List.length_cons]
        omega
    obtain ⟨more, hmore⟩ := htaken
    have hsize := congrArg Text.byteSize hmore
    rw [Text.byteSize_append, Text.byteSize] at hsize
    change offset + Text.byteSize text ≤ t.start
    omega

theorem spans_of_mem {text : Text} {t : Token} (h : t ∈ ofText text) :
    text.Spans t.start t.stop t.text := by
  obtain ⟨before, after, htext, -, hstart, hstop⟩ := mem_scan h
  exact ⟨before, after, htext, by rw [hstart, Nat.zero_add], by rw [hstop, Nat.zero_add]⟩

theorem ofText_ascending (text : Text) : (ofText text).Pairwise (·.stop ≤ ·.start) :=
  scan_ascending [] 0 0 text

end Token

namespace SyntaxTree

/-- Visiting with a stack is going through the trees in preorder. -/
theorem visit_eq_preorderAll (stack : List SyntaxTree) : visit stack = preorderAll stack := by
  fun_induction visit stack with
  | case1 => rfl
  | case2 t rest ih =>
    rw [ih, preorderAll_append]
    cases t with
    | node k s e cs => rfl

theorem visit_singleton (t : SyntaxTree) : visit [t] = t.preorder := by
  rw [visit_eq_preorderAll, preorderAll, preorderAll, List.append_nil]

theorem nodes_eq_filter (t : SyntaxTree) (ofKind : Option Text) :
    t.nodes ofKind = t.preorder.filter fun n => ofKind.all (· = n.kind) := by
  rw [nodes, visit_singleton]

theorem mem_nodes_iff {t n : SyntaxTree} {kind : Text} :
    n ∈ t.nodes (some kind) ↔ n ∈ t.preorder ∧ n.kind = kind := by
  simp [nodes_eq_filter, eq_comm]

theorem mem_preorderAll_iff {ts : List SyntaxTree} {n : SyntaxTree} :
    n ∈ preorderAll ts ↔ ∃ t ∈ ts, n ∈ t.preorder := by
  induction ts with
  | nil => simp [preorderAll]
  | cons t ts ih => simp [preorderAll, ih]

theorem mem_preorder_iff {t n : SyntaxTree} :
    n ∈ t.preorder ↔ n = t ∨ ∃ c ∈ t.children, n ∈ c.preorder := by
  cases t with
  | node k s e cs => simp [preorder, children, mem_preorderAll_iff]

end SyntaxTree

namespace NoneComparison

/-- A chain lies in the text: it starts and stops between characters, its children stand in it one
after the other, and its equality operators start and stop between characters. -/
structure LaidOut (text : Text) (chain : SyntaxTree) : Prop where
  start_boundary : text.Boundary chain.start
  stop_boundary : text.Boundary chain.stop
  operator_boundaries : ∀ c ∈ chain.children, (identityFor? c.kind).isSome →
    text.Boundary c.start ∧ text.Boundary c.stop
  inside : ∀ c ∈ chain.children,
    chain.start ≤ c.start ∧ c.start ≤ c.stop ∧ c.stop ≤ chain.stop
  ascending : chain.children.Pairwise (·.stop ≤ ·.start)

/-- The equality operators of a chain are where the text says so. -/
def Spelled (text : Text) (chain : SyntaxTree) : Prop :=
  ∀ c ∈ chain.children, (identityFor? c.kind).isSome → text.Spans c.start c.stop c.kind

/-- Every chain of a tree lies in the text, with its operators where the text says so. -/
def Sound (text : Text) (t : SyntaxTree) : Prop :=
  ∀ n ∈ t.preorder, n.kind = Comparison.chainKind → LaidOut text n ∧ Spelled text n

theorem laidOut_leaf {text kind : Text} {start stop : Int} (hstart : text.Boundary start)
    (hstop : text.Boundary stop) :
    LaidOut text (.node kind start stop []) ∧ Spelled text (.node kind start stop []) :=
  ⟨⟨hstart, hstop, List.forall_mem_nil _, List.forall_mem_nil _, List.Pairwise.nil⟩,
    List.forall_mem_nil _⟩

theorem Sound.of_children {text : Text} {t : SyntaxTree}
    (self : t.kind = Comparison.chainKind → LaidOut text t ∧ Spelled text t)
    (below : ∀ c ∈ t.children, Sound text c) : Sound text t := by
  intro n hn hkind
  rcases SyntaxTree.mem_preorder_iff.mp hn with rfl | ⟨c, hc, hn⟩
  · exact self hkind
  · exact below c hc n hn hkind

end NoneComparison

namespace Comparison

open NoneComparison (LaidOut Spelled Sound identityFor? laidOut_leaf)

variable {text : Text}

namespace Level

/-- A part of a chain lies in the text. -/
structure Fits (text : Text) (x : Part) : Prop where
  start_boundary : text.Boundary (startOf x)
  stop_boundary : text.Boundary (stopOf x)
  start_le_stop : startOf x ≤ stopOf x
  spelled : (identityFor? (nodeOf x).kind).isSome →
    text.Spans (startOf x) (stopOf x) (nodeOf x).kind
  sound : ∀ c ∈ (nodeOf x).children, Sound text c

/-- What was read of a level lies in the text, its parts one after the other before an offset. -/
structure ReadUpTo (text : Text) (offset : Nat) (level : Level) : Prop where
  fits : ∀ x ∈ level.parts, Fits text x
  before : ∀ x ∈ level.parts, stopOf x ≤ offset
  descending : level.parts.Pairwise fun later earlier => stopOf earlier ≤ startOf later
  sound : ∀ c ∈ level.chains, Sound text c

theorem nodeOf_start (x : Part) : (nodeOf x).start = startOf x := by cases x <;> rfl

theorem nodeOf_stop (x : Part) : (nodeOf x).stop = stopOf x := by cases x <;> rfl

/-- Nothing is asked of the spelling of what is no equality operator. -/
theorem spelled_of_identityFor?_eq_none {kind : Text} {p : Prop}
    (h : identityFor? kind = none) (hsome : (identityFor? kind).isSome) : p := by
  rw [h] at hsome
  cases hsome

theorem identityFor?_operand (isNone : Bool) :
    identityFor? (if isNone then noneKind else "operand".toList) = none := by
  cases isNone <;> decide

theorem dropAsides_suffix (parts : List Part) : dropAsides parts <:+ parts := by
  fun_induction dropAsides parts with
  | case1 kind start stop rest ih => exact ih.trans (List.suffix_cons _ _)
  | case2 parts => exact List.suffix_rfl

variable {level : Level} {offset : Nat}

theorem readUpTo_empty : ReadUpTo text 0 empty := by
  constructor <;> simp [empty]

/-- Parts that were read before an offset were read before every later one. -/
theorem ReadUpTo.mono {later : Nat} (h : ReadUpTo text offset level) (hle : offset ≤ later) :
    ReadUpTo text later level where
  fits := h.fits
  before := fun x hx => Nat.le_trans (h.before x hx) hle
  descending := h.descending
  sound := h.sound

theorem ReadUpTo.setAfterFor (h : ReadUpTo text offset level) (afterFor : Bool) :
    ReadUpTo text offset { level with afterFor } :=
  ⟨h.fits, h.before, h.descending, h.sound⟩

/-- A part that starts at or after the offset can be added. -/
theorem ReadUpTo.push (h : ReadUpTo text offset level) {x : Part} (fits : Fits text x)
    (hx : offset ≤ startOf x) :
    ReadUpTo text (stopOf x) { level with parts := x :: level.parts } where
  fits := List.forall_mem_cons.mpr ⟨fits, h.fits⟩
  before := by
    refine List.forall_mem_cons.mpr ⟨Nat.le_refl _, fun y hy => ?_⟩
    have := h.before y hy
    have := fits.start_le_stop
    omega
  descending := List.pairwise_cons.mpr ⟨fun y hy => Nat.le_trans (h.before y hy) hx, h.descending⟩
  sound := h.sound

/-- The last part that is no aside can be replaced by one that starts where it starts. -/
theorem ReadUpTo.extend (h : ReadUpTo text offset level) {x y : Part} {rest : List Part}
    (hparts : dropAsides level.parts = x :: rest) (fits : Fits text y)
    (hstart : startOf y = startOf x) :
    ReadUpTo text (stopOf y) { level with parts := y :: rest } := by
  have hsuffix : x :: rest <:+ level.parts := hparts ▸ dropAsides_suffix level.parts
  have hrest : ∀ z ∈ rest, z ∈ level.parts :=
    fun z hz => hsuffix.subset (List.mem_cons_of_mem x hz)
  have hdescending := List.pairwise_cons.mp (h.descending.sublist hsuffix.sublist)
  have hbefore : ∀ z ∈ rest, stopOf z ≤ startOf y := by
    intro z hz
    rw [hstart]
    exact hdescending.1 z hz
  exact
    { fits := List.forall_mem_cons.mpr ⟨fits, fun z hz => h.fits z (hrest z hz)⟩
      before := List.forall_mem_cons.mpr
        ⟨Nat.le_refl _, fun z hz => Nat.le_trans (hbefore z hz) fits.start_le_stop⟩
      descending := List.pairwise_cons.mpr ⟨hbefore, hdescending.2⟩
      sound := h.sound }

theorem Fits.sound_node {x : Part} (h : Fits text x) : Sound text (nodeOf x) := by
  refine Sound.of_children (fun hkind => ?_) h.sound
  cases x with
  | operand start stop isNone chains =>
    have hne : (if isNone then noneKind else "operand".toList) ≠ chainKind := by
      cases isNone <;> decide
    exact absurd hkind hne
  | operator kind start stop => exact laidOut_leaf h.start_boundary h.stop_boundary
  | aside kind start stop => exact laidOut_leaf h.start_boundary h.stop_boundary

/-- Parts that stand one after the other in the text make a chain that lies in it. -/
theorem sound_chain {parts : List Part} {first final : Part} (fits : ∀ x ∈ parts, Fits text x)
    (ascending : parts.Pairwise fun earlier later => stopOf earlier ≤ startOf later)
    (hfirst : first ∈ parts) (leads : ∀ x ∈ parts, startOf first ≤ startOf x)
    (hfinal : final ∈ parts) (closes : ∀ x ∈ parts, stopOf x ≤ stopOf final) :
    Sound text (.node chainKind (startOf first) (stopOf final) (parts.map nodeOf)) := by
  refine Sound.of_children (fun _ => ⟨?_, ?_⟩) ?_
  · exact
      { start_boundary := (fits first hfirst).start_boundary
        stop_boundary := (fits final hfinal).stop_boundary
        operator_boundaries := by
          refine List.forall_mem_map.mpr fun x hx _ => ?_
          rw [nodeOf_start, nodeOf_stop]
          exact ⟨(fits x hx).start_boundary, (fits x hx).stop_boundary⟩
        inside := by
          refine List.forall_mem_map.mpr fun x hx => ?_
          rw [nodeOf_start, nodeOf_stop]
          exact ⟨Int.ofNat_le.mpr (leads x hx), Int.ofNat_le.mpr (fits x hx).start_le_stop,
            Int.ofNat_le.mpr (closes x hx)⟩
        ascending := by
          refine List.pairwise_map.mpr (ascending.imp fun {a b} hab => ?_)
          rw [nodeOf_start, nodeOf_stop]
          exact Int.ofNat_le.mpr hab }
  · refine List.forall_mem_map.mpr fun x hx hkind => ?_
    rw [nodeOf_start, nodeOf_stop]
    exact (fits x hx).spelled hkind
  · exact List.forall_mem_map.mpr fun x hx => (fits x hx).sound_node

theorem mem_chainsInside {parts : List Part} {c : SyntaxTree} (h : c ∈ chainsInside parts) :
    ∃ x ∈ parts, c ∈ (nodeOf x).children := by
  obtain ⟨x, hx, hc⟩ := List.mem_flatMap.mp h
  refine ⟨x, hx, ?_⟩
  cases x with
  | operand start stop isNone chains => exact hc
  | operator kind start stop => cases hc
  | aside kind start stop => cases hc

theorem ReadUpTo.separate (h : ReadUpTo text offset level) :
    ReadUpTo text offset (separate level) := by
  have hlast := dropAsides_suffix level.parts
  have hparts := dropAsides_suffix (dropAsides level.parts).reverse
  obtain ⟨last, hlasteq⟩ : ∃ last, dropAsides level.parts = last := ⟨_, rfl⟩
  obtain ⟨parts, hpartseq⟩ : ∃ parts, dropAsides last.reverse = parts := ⟨_, rfl⟩
  rw [hlasteq] at hlast hparts
  rw [hpartseq] at hparts
  have hmem : ∀ x ∈ parts, x ∈ last := fun x hx => List.mem_reverse.mp (hparts.subset hx)
  have fits : ∀ x ∈ parts, Fits text x := fun x hx => h.fits x (hlast.subset (hmem x hx))
  have hdescending := h.descending.sublist hlast.sublist
  have ascending : parts.Pairwise fun earlier later => stopOf earlier ≤ startOf later :=
    (List.pairwise_reverse.mpr hdescending).sublist hparts.sublist
  constructor
  · simp [Level.separate]
  · simp [Level.separate]
  · simp [Level.separate]
  · unfold Level.separate
    simp only [hlasteq, hpartseq]
    refine List.forall_mem_append.mpr ⟨fun c hc => ?_, h.sound⟩
    rw [List.mem_reverse] at hc
    split at hc
    next first final hfirst hfinal =>
      split at hc
      next =>
        rw [List.mem_singleton.mp hc]
        obtain ⟨tail, rfl⟩ := List.head?_eq_some_iff.mp hfirst
        obtain ⟨before, rfl⟩ := List.head?_eq_some_iff.mp hfinal
        have hfinalmem : final ∈ first :: tail := by
          have hlasts := hparts.getLast (List.cons_ne_nil first tail)
          rw [List.getLast_reverse, List.head_cons] at hlasts
          exact hlasts ▸ List.getLast_mem _
        refine sound_chain fits ascending (List.mem_cons_self) ?_ hfinalmem ?_
        · have hfirstfits := fits first List.mem_cons_self
          refine List.forall_mem_cons.mpr ⟨Nat.le_refl _, fun x hx => ?_⟩
          exact Nat.le_trans hfirstfits.start_le_stop ((List.pairwise_cons.mp ascending).1 x hx)
        · intro x hx
          rcases List.mem_cons.mp (hmem x hx) with rfl | hx
          · exact Nat.le_refl _
          · exact Nat.le_trans ((List.pairwise_cons.mp hdescending).1 x hx)
              (fits final hfinalmem).start_le_stop
      next =>
        obtain ⟨x, hx, hc⟩ := mem_chainsInside hc
        exact (fits x hx).sound c hc
    next => cases hc

theorem ReadUpTo.addOperator (h : ReadUpTo text offset level) {kind : Text} {start stop : Nat}
    (hstart : text.Boundary start) (hstop : text.Boundary stop) (hle : start ≤ stop)
    (hoffset : offset ≤ start)
    (spelled : (identityFor? kind).isSome → text.Spans start stop kind) :
    ReadUpTo text stop (addOperator level kind start stop) :=
  h.push (x := .operator kind start stop)
    ⟨hstart, hstop, hle, spelled, List.forall_mem_nil _⟩ hoffset

theorem ReadUpTo.addOperand (h : ReadUpTo text offset level) {start stop : Nat} {isNone : Bool}
    {chains : List SyntaxTree} (hstart : text.Boundary start) (hstop : text.Boundary stop)
    (hle : start ≤ stop) (hoffset : offset ≤ start) (sound : ∀ c ∈ chains, Sound text c) :
    ReadUpTo text stop (addOperand level start stop isNone chains) := by
  unfold Level.addOperand
  split
  next s e b cs rest hparts =>
    have hmem : .operand s e b cs ∈ level.parts :=
      (dropAsides_suffix level.parts).subset (hparts ▸ List.mem_cons_self)
    have hfits := h.fits _ hmem
    have hbefore := h.before _ hmem
    have hse := hfits.start_le_stop
    refine h.extend hparts (y := .operand s stop false (cs ++ chains)) ?_ rfl
    refine ⟨hfits.start_boundary, hstop, ?_,
      spelled_of_identityFor?_eq_none (identityFor?_operand false), ?_⟩
    · simp only [startOf, stopOf] at hse hbefore ⊢
      omega
    · exact List.forall_mem_append.mpr ⟨hfits.sound, sound⟩
  next =>
    exact h.push (x := .operand start stop isNone chains) ⟨hstart, hstop, hle,
      spelled_of_identityFor?_eq_none (identityFor?_operand isNone), sound⟩ hoffset

/-- The second word of an operator takes the operator on. -/
theorem ReadUpTo.prolong (h : ReadUpTo text offset level) {first kind : Text} {s e stop : Nat}
    {rest : List Part} (hparts : dropAsides level.parts = .operator first s e :: rest)
    (hstop : text.Boundary stop) (hoffset : offset ≤ stop) (hkind : identityFor? kind = none) :
    ReadUpTo text stop { level with parts := .operator kind s stop :: rest } := by
  have hmem : .operator first s e ∈ level.parts :=
    (dropAsides_suffix level.parts).subset (hparts ▸ List.mem_cons_self)
  have hfits := h.fits _ hmem
  have hbefore := h.before _ hmem
  have hse := hfits.start_le_stop
  refine h.extend hparts (y := .operator kind s stop) ?_ rfl
  refine ⟨hfits.start_boundary, hstop, ?_, spelled_of_identityFor?_eq_none hkind,
    List.forall_mem_nil _⟩
  simp only [startOf, stopOf] at hse hbefore ⊢
  omega

theorem ReadUpTo.addNot (h : ReadUpTo text offset level) {start stop : Nat}
    (hstart : text.Boundary start) (hstop : text.Boundary stop) (hle : start ≤ stop)
    (hoffset : offset ≤ start) : ReadUpTo text stop (addNot level start stop) := by
  have hlater := Nat.le_trans hoffset hle
  unfold Level.addNot
  split
  next kind s e rest hparts =>
    split
    next => exact h.prolong hparts hstop hlater (by decide)
    next => exact h.separate.mono hlater
  next => exact h.addOperator hstart hstop hle hoffset (spelled_of_identityFor?_eq_none (by decide))
  next => exact h.separate.mono hlater

theorem ReadUpTo.addIn (h : ReadUpTo text offset level) {start stop : Nat}
    (hstart : text.Boundary start) (hstop : text.Boundary stop) (hle : start ≤ stop)
    (hoffset : offset ≤ start) : ReadUpTo text stop (addIn level start stop) := by
  have hlater := Nat.le_trans hoffset hle
  have hoperator : ReadUpTo text stop (Level.addOperator level "in".toList start stop) :=
    h.addOperator hstart hstop hle hoffset (spelled_of_identityFor?_eq_none (by decide))
  unfold Level.addIn
  split
  next => exact (h.separate.mono hlater).setAfterFor false
  next =>
    split
    next kind s e rest hparts =>
      split
      next => exact h.prolong hparts hstop hlater (by decide)
      next => exact hoperator
    next => exact hoperator

theorem ReadUpTo.addName (h : ReadUpTo text offset level) {name : Text} {start stop : Nat}
    (hspans : text.Spans start stop name) (hle : start ≤ stop) (hoffset : offset ≤ start) :
    ReadUpTo text stop (addName level name start stop) := by
  have hstart := hspans.start_boundary
  have hstop := hspans.stop_boundary
  have hlater := Nat.le_trans hoffset hle
  have hseparate := h.separate.mono hlater
  unfold Level.addName
  split
  next => exact h.addNot hstart hstop hle hoffset
  next =>
  split
  next => exact h.addIn hstart hstop hle hoffset
  next =>
  split
  next => exact h.addOperator hstart hstop hle hoffset fun _ => hspans
  next =>
  split
  next => exact hseparate.setAfterFor true
  next =>
  split
  next => exact hseparate
  next => exact h.addOperand hstart hstop hle hoffset (List.forall_mem_nil _)

end Level

namespace Piece

def start : Piece → Nat
  | .token t => t.start
  | .group start _ _ => start

def stop : Piece → Nat
  | .token t => t.stop
  | .group _ stop _ => stop

/-- A piece lies in the text. -/
def Fits (text : Text) : Piece → Prop
  | .token t => text.Spans t.start t.stop t.text
  | .group start stop chains =>
    text.Boundary start ∧ text.Boundary stop ∧ start ≤ stop ∧ ∀ c ∈ chains, Sound text c

theorem Fits.start_le_stop {p : Piece} (h : p.Fits text) : p.start ≤ p.stop := by
  cases p with
  | token t =>
    have := Text.Spans.stop_eq h
    simp only [Piece.start, Piece.stop]
    omega
  | group start stop chains => exact h.2.2.1

end Piece

namespace Level

variable {level : Level} {offset : Nat}

/-- Adding a piece that follows in the text keeps what was read of a level in the text. -/
theorem ReadUpTo.add (h : ReadUpTo text offset level) {p : Piece} (fits : p.Fits text)
    (hoffset : offset ≤ p.start) (inside : Bool) : ReadUpTo text p.stop (add inside level p) := by
  have hle := fits.start_le_stop
  have hlater := Nat.le_trans hoffset hle
  cases p with
  | group start stop chains =>
    exact h.addOperand fits.1 fits.2.1 fits.2.2.1 hoffset fits.2.2.2
  | token t =>
    have hstart := Text.Spans.start_boundary fits
    have hstop := Text.Spans.stop_boundary fits
    have hoperand : ReadUpTo text t.stop (Level.addOperand level t.start t.stop false []) :=
      h.addOperand hstart hstop hle hoffset (List.forall_mem_nil _)
    have haside (kind : Text) (hkind : identityFor? kind = none) :
        ReadUpTo text t.stop
          { level with parts := .aside kind t.start t.stop :: level.parts } :=
      h.push (x := .aside kind t.start t.stop) ⟨hstart, hstop, hle,
        spelled_of_identityFor?_eq_none hkind, List.forall_mem_nil _⟩ hoffset
    unfold Level.add
    dsimp only
    split
    next => exact h.addName fits hle hoffset
    next =>
      split
      next => exact h.addOperator hstart hstop hle hoffset fun _ => fits
      next =>
      split
      next => exact h.separate.mono hlater
      next =>
      split
      next => exact h.separate.mono hlater
      next => exact hoperand
    next =>
      split
      next => exact h.mono hlater
      next => exact (h.separate.mono hlater).setAfterFor false
    next => exact haside _ (by decide)
    next => exact haside _ (by decide)
    all_goals exact hoperand

end Level

/-- The chains of pieces that stand one after the other in the text lie in it. -/
theorem sound_chainsOf {pieces : List Piece} (fits : ∀ p ∈ pieces, p.Fits text)
    (ascending : pieces.Pairwise fun earlier later => earlier.stop ≤ later.start)
    (inside : Bool) : ∀ c ∈ chainsOf inside pieces, Sound text c := by
  have hfold : ∀ level offset, Level.ReadUpTo text offset level →
      (∀ p ∈ pieces, offset ≤ p.start) →
      ∃ last, Level.ReadUpTo text last (pieces.foldl (Level.add inside) level) := by
    induction pieces with
    | nil => exact fun level offset h _ => ⟨offset, h⟩
    | cons p rest ih =>
      intro level offset h hoffset
      obtain ⟨hp, hrest⟩ := List.forall_mem_cons.mp fits
      obtain ⟨hnext, ascending⟩ := List.pairwise_cons.mp ascending
      exact ih hrest ascending _ p.stop (h.add hp (hoffset p List.mem_cons_self) inside) hnext
  obtain ⟨last, hlast⟩ := hfold Level.empty 0 Level.readUpTo_empty fun _ _ => Nat.zero_le _
  intro c hc
  exact hlast.separate.sound c (List.mem_reverse.mp hc)

/-- The pieces on a level, last one first, lie in the text one after the other before an
offset. -/
structure Piece.Run (text : Text) (offset : Nat) (pieces : List Piece) : Prop where
  fits : ∀ p ∈ pieces, p.Fits text
  before : ∀ p ∈ pieces, p.stop ≤ offset
  descending : pieces.Pairwise fun later earlier => earlier.stop ≤ later.start

namespace Piece.Run

variable {pieces : List Piece} {offset : Nat}

theorem mono {later : Nat} (h : Run text offset pieces) (hle : offset ≤ later) :
    Run text later pieces where
  fits := h.fits
  before := fun p hp => Nat.le_trans (h.before p hp) hle
  descending := h.descending

theorem cons (h : Run text offset pieces) {p : Piece} (fits : p.Fits text)
    (hp : offset ≤ p.start) : Run text p.stop (p :: pieces) where
  fits := List.forall_mem_cons.mpr ⟨fits, h.fits⟩
  before := List.forall_mem_cons.mpr ⟨Nat.le_refl _, fun q hq =>
    Nat.le_trans (h.before q hq) (Nat.le_trans hp fits.start_le_stop)⟩
  descending := List.pairwise_cons.mpr
    ⟨fun q hq => Nat.le_trans (h.before q hq) hp, h.descending⟩

theorem sound (h : Run text offset pieces) (inside : Bool) :
    ∀ c ∈ chainsOf inside pieces.reverse, Sound text c :=
  sound_chainsOf (fun p hp => h.fits p (List.mem_reverse.mp hp))
    (List.pairwise_reverse.mpr h.descending) inside

end Piece.Run

namespace Nesting

/-- The levels around an offset lie in the text, each before the bracket that opens the next. -/
def Around (text : Text) : Nat → List (Nat × List Piece) → Prop
  | _, [] => True
  | offset, (start, pieces) :: outer =>
    start ≤ offset ∧ text.Boundary start ∧ Piece.Run text start pieces ∧ Around text start outer

/-- What was read up to an offset lies in the text. -/
structure ReadUpTo (text : Text) (offset : Nat) (n : Nesting) : Prop where
  run : Piece.Run text offset n.pieces
  around : Around text offset n.outer

variable {n : Nesting} {offset : Nat}

theorem Around.mono {outer : List (Nat × List Piece)} {later : Nat}
    (h : Around text offset outer) (hle : offset ≤ later) : Around text later outer := by
  cases outer with
  | nil => trivial
  | cons level outer => exact ⟨Nat.le_trans h.1 hle, h.2⟩

theorem ReadUpTo.mono {later : Nat} (h : ReadUpTo text offset n) (hle : offset ≤ later) :
    ReadUpTo text later n := ⟨h.run.mono hle, h.around.mono hle⟩

/-- A bracket that is closed becomes a piece of the level around it. -/
theorem run_group {pieces around : List Piece} {start stop : Nat}
    (h : Piece.Run text offset pieces) (hstart : text.Boundary start)
    (hstop : text.Boundary stop) (hle : start ≤ stop) (haround : Piece.Run text start around) :
    Piece.Run text stop (.group start stop (chainsOf true pieces.reverse) :: around) :=
  haround.cons (p := .group start stop (chainsOf true pieces.reverse))
    ⟨hstart, hstop, hle, h.sound true⟩ (Nat.le_refl _)

theorem ReadUpTo.close (h : ReadUpTo text offset n) {stop : Nat} (hstop : text.Boundary stop)
    (hle : offset ≤ stop) : ReadUpTo text stop (n.close stop) := by
  unfold Nesting.close
  split
  next start pieces outer houter =>
    obtain ⟨hbefore, hstart, hrun, haround⟩ := houter ▸ h.around
    have hstartstop := Nat.le_trans hbefore hle
    exact ⟨run_group h.run hstart hstop hstartstop hrun, haround.mono hstartstop⟩
  next => exact h.mono hle

/-- Reading a token that follows in the text keeps what was read in the text. -/
theorem ReadUpTo.read (h : ReadUpTo text offset n) {t : Token}
    (spans : text.Spans t.start t.stop t.text) (hoffset : offset ≤ t.start) :
    ReadUpTo text t.stop (n.read t) := by
  have hle : t.start ≤ t.stop := Piece.Fits.start_le_stop (p := .token t) spans
  unfold Nesting.read
  split
  next =>
    refine ⟨⟨List.forall_mem_nil _, List.forall_mem_nil _, List.Pairwise.nil⟩, ?_⟩
    exact ⟨hle, spans.start_boundary, h.run.mono hoffset, h.around.mono hoffset⟩
  next => exact h.close spans.stop_boundary (Nat.le_trans hoffset hle)
  next =>
    exact ⟨h.run.cons (p := .token t) spans hoffset, h.around.mono (Nat.le_trans hoffset hle)⟩

theorem ReadUpTo.readAll {tokens : List Token} {size : Nat} (h : ReadUpTo text offset n)
    (spans : ∀ t ∈ tokens, text.Spans t.start t.stop t.text)
    (ascending : tokens.Pairwise fun earlier later => earlier.stop ≤ later.start)
    (hoffset : ∀ t ∈ tokens, offset ≤ t.start) (hsize : ∀ t ∈ tokens, t.stop ≤ size)
    (hle : offset ≤ size) : ReadUpTo text size (tokens.foldl Nesting.read n) := by
  induction tokens generalizing n offset with
  | nil => exact h.mono hle
  | cons t rest ih =>
    obtain ⟨ht, hrest⟩ := List.forall_mem_cons.mp spans
    obtain ⟨hnext, ascending⟩ := List.pairwise_cons.mp ascending
    obtain ⟨htsize, hrestsize⟩ := List.forall_mem_cons.mp hsize
    exact ih (h.read ht (hoffset t List.mem_cons_self)) hrest ascending hnext hrestsize htsize

theorem run_closeAll {pieces : List Piece} {outer : List (Nat × List Piece)} {stop : Nat}
    (h : Piece.Run text stop pieces) (haround : Around text stop outer)
    (hstop : text.Boundary stop) : Piece.Run text stop (closeAll stop pieces outer).reverse := by
  induction outer generalizing pieces with
  | nil => simpa [closeAll] using h
  | cons level outer ih =>
    obtain ⟨hle, hstart, hrun, hrest⟩ := haround
    exact ih (run_group h hstart hstop hle hrun) (hrest.mono hle)

end Nesting

theorem linesOf_sublist {pieces line : List Piece} (h : line ∈ linesOf pieces) :
    line.Sublist pieces := by
  induction pieces generalizing line with
  | nil =>
    obtain rfl := List.mem_singleton.mp h
    exact List.nil_sublist _
  | cons p rest ih =>
    unfold linesOf at h
    split at h
    next =>
      rcases List.mem_cons.mp h with rfl | h
      · exact List.nil_sublist _
      · exact (ih h).cons p
    next =>
      split at h
      next first lines hlines =>
        rcases List.mem_cons.mp h with rfl | h
        · exact (ih (hlines ▸ List.mem_cons_self)).cons_cons p
        · exact (ih (hlines ▸ List.mem_cons_of_mem _ h)).cons p
      next =>
        obtain rfl := List.mem_singleton.mp h
        exact (List.nil_sublist rest).cons_cons p

theorem dropMatch_sublist (line : List Piece) : (dropMatch line).Sublist line := by
  unfold dropMatch
  split
  next first second rest =>
    dsimp only
    split
    next => exact List.sublist_cons_self _ _
    next => exact List.Sublist.refl _
  next => exact List.Sublist.refl _

end Comparison

namespace NoneComparison

/-- In the tree of a text every chain lies in the text, with its equality operators where the text
says so. -/
theorem sound_ofText (text : Text) : Sound text (SyntaxTree.ofText text) := by
  have hsize : text.Boundary (Text.byteSize text) := ⟨text, [], by simp, rfl⟩
  have hstart : Comparison.Nesting.ReadUpTo text 0 { pieces := [], outer := [] } :=
    ⟨⟨List.forall_mem_nil _, List.forall_mem_nil _, List.Pairwise.nil⟩, trivial⟩
  have hread := hstart.readAll (fun t ht => Token.spans_of_mem ht) (Token.ofText_ascending text)
    (fun _ _ => Nat.zero_le _) (fun t ht => Int.ofNat_le.mp (Token.spans_of_mem ht).stop_le)
    (Nat.zero_le _)
  have hrun := Comparison.Nesting.run_closeAll hread.run hread.around hsize
  have hmodule : "module".toList ≠ Comparison.chainKind := by decide
  refine Sound.of_children (fun hkind => absurd hkind hmodule) fun c hc => ?_
  obtain ⟨line, hline, hc⟩ := List.mem_flatMap.mp hc
  have hsublist := (Comparison.dropMatch_sublist line).trans (Comparison.linesOf_sublist hline)
  refine Comparison.sound_chainsOf (fun p hp => ?_) ?_ false c hc
  · exact hrun.fits p (List.mem_reverse.mpr (hsublist.subset hp))
  · exact (List.pairwise_reverse.mp hrun.descending).sublist hsublist

end NoneComparison

end StyleRules
