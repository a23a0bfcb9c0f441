import StyleRules.CommandLine

namespace StyleRules

namespace Value

/-- Items can be taken from a value: those of a list, the characters of a text, the bytes of bytes,
the keys of a mapping, and what another value has. -/
def HasItems : Value → Prop
  | .list _ | .text _ | .bytes _ | .map _ | .other _ _ (some _) => True
  | _ => False

/-- A value is read as a text. -/
def IsText (v : Value) : Prop := ∃ t, v.toText = .ok t

/-- Items can be taken from a value, and all of them are read as texts. -/
def HasTexts : Value → Prop
  | .list items | .other _ _ (some items) => ∀ v ∈ items, v.IsText
  | .text _ => True
  | .bytes b => b = []
  | .map entries => ∀ e ∈ entries, e.1.IsText
  | _ => False

theorem HasTexts.hasItems {v : Value} (h : v.HasTexts) : v.HasItems := by
  cases v with
  | list _ | text _ | bytes _ | map _ => trivial
  | other kind shown items =>
    cases items with
    | none => exact h
    | some items => trivial
  | _ => exact h

theorem isText_text (t : Text) : (text t).IsText := ⟨t, rfl⟩

theorem not_isText_int (n : Int) : ¬(int n).IsText := by
  rintro ⟨t, ⟨⟩⟩

end Value

namespace Reading

variable {α β : Type}

theorem exists_map_iff {f : α → β} {reading : Reading α} :
    (∃ b, reading.map f = .ok b) ↔ ∃ a, reading = .ok a := by
  cases reading with
  | ok a => exact ⟨fun _ => ⟨a, rfl⟩, fun _ => ⟨f a, rfl⟩⟩
  | error es => exact iff_of_false (by rintro ⟨_, ⟨⟩⟩) (by rintro ⟨_, ⟨⟩⟩)

theorem exists_under_iff {name : Text} {reading : Reading α} :
    (∃ a, under name reading = .ok a) ↔ ∃ a, reading = .ok a := by
  cases reading with
  | ok a => exact ⟨fun _ => ⟨a, rfl⟩, fun _ => ⟨a, rfl⟩⟩
  | error es => exact iff_of_false (by rintro ⟨_, ⟨⟩⟩) (by rintro ⟨_, ⟨⟩⟩)

theorem exists_both_iff {γ : Type} {f : α → β → γ} {a : Reading α} {b : Reading β} :
    (∃ c, both f a b = .ok c) ↔ (∃ x, a = .ok x) ∧ ∃ y, b = .ok y := by
  cases a <;> cases b <;> simp [both]

theorem exists_text_iff {v : Value} : (∃ t, text v = .ok t) ↔ v.IsText := by
  unfold text Value.IsText
  cases v.toText with
  | ok t => exact ⟨fun _ => ⟨t, rfl⟩, fun _ => ⟨t, rfl⟩⟩
  | error f => exact iff_of_false (by rintro ⟨_, ⟨⟩⟩) (by rintro ⟨_, ⟨⟩⟩)

/-- A list of texts is read exactly if each of its items is a text. -/
theorem exists_items_text_iff {position : Nat} {vs : List Value} :
    (∃ ts, items text position vs = .ok ts) ↔ ∀ v ∈ vs, v.IsText := by
  induction vs generalizing position with
  | nil => exact ⟨fun _ => by simp, fun _ => ⟨[], rfl⟩⟩
  | cons v rest ih =>
    rw [items, exists_both_iff, exists_under_iff, exists_text_iff, ih, List.forall_mem_cons]

end Reading

namespace Configuration

/-- What a mapping says about the rules that may not run; a void value says nothing. -/
def disabledValue? (entries : List (Value × Value)) : Option Value :=
  match Value.entry? "disabled_rules".toList entries with
  | none => none
  | some v => if v.isVoid then none else some v

/-- What a mapping says about the only rules that may run; null says nothing. -/
def onlyValue? (entries : List (Value × Value)) : Option Value :=
  match Value.entry? "only_rules".toList entries with
  | none | some .null => none
  | some v => some v

theorem itemsOf_eq_error {v : Value} (h : ¬v.HasItems) : itemsOf v = .error .noItems := by
  cases v with
  | list _ | text _ | bytes _ | map _ => exact absurd trivial h
  | other kind shown items =>
    cases items with
    | none => rfl
    | some items => exact absurd trivial h
  | _ => rfl

theorem exists_itemsOf {v : Value} (h : v.HasItems) :
    ∃ items, itemsOf v = .ok items ∧ (v.HasTexts ↔ ∀ i ∈ items, i.IsText) := by
  cases v with
  | list items => exact ⟨items, rfl, Iff.rfl⟩
  | text t => exact ⟨_, rfl, by simp [Value.HasTexts, Value.isText_text]⟩
  | bytes b =>
    refine ⟨_, rfl, ?_⟩
    cases b <;> simp [Value.HasTexts, Value.not_isText_int]
  | map entries => exact ⟨_, rfl, by simp [Value.HasTexts]⟩
  | other kind shown items =>
    cases items with
    | none => exact absurd h id
    | some items => exact ⟨items, rfl, Iff.rfl⟩
  | _ => exact absurd h id

variable {registry : Registry} {entries : List (Value × Value)}

theorem disabledItems_eq :
    disabledItems entries = (disabledValue? entries).elim (.ok []) itemsOf := by
  rw [disabledItems, disabledValue?]
  cases Value.entry? "disabled_rules".toList entries with
  | none => rfl
  | some v => by_cases hv : v.isVoid <;> simp [hv]

theorem onlyItems_eq :
    onlyItems entries = (onlyValue? entries).elim (.ok none) fun v => (itemsOf v).map some := by
  rw [onlyItems, onlyValue?]
  cases Value.entry? "only_rules".toList entries with
  | none => rfl
  | some v => cases v <;> rfl

theorem disabledItems_eq_error (h : ∃ v ∈ disabledValue? entries, ¬v.HasItems) :
    disabledItems entries = .error .noItems := by
  obtain ⟨v, hv, hnone⟩ := h
  rw [disabledItems_eq, hv, Option.elim_some, itemsOf_eq_error hnone]

theorem onlyItems_eq_error (h : ∃ v ∈ onlyValue? entries, ¬v.HasItems) :
    onlyItems entries = .error .noItems := by
  obtain ⟨v, hv, hnone⟩ := h
  rw [onlyItems_eq, hv, Option.elim_some, itemsOf_eq_error hnone]
  rfl

theorem exists_disabledItems (h : ∀ v ∈ disabledValue? entries, v.HasItems) :
    ∃ items, disabledItems entries = .ok items ∧
      ((∀ v ∈ disabledValue? entries, v.HasTexts) ↔ ∀ i ∈ items, i.IsText) := by
  rw [disabledItems_eq]
  cases hv : disabledValue? entries with
  | none => exact ⟨[], rfl, by simp⟩
  | some v =>
    obtain ⟨items, heq, htexts⟩ := exists_itemsOf (h v hv)
    exact ⟨items, heq, by simpa using htexts⟩

theorem exists_onlyItems (h : ∀ v ∈ onlyValue? entries, v.HasItems) :
    ∃ only, onlyItems entries = .ok only ∧
      ((∀ v ∈ onlyValue? entries, v.HasTexts) ↔ ∀ items ∈ only, ∀ i ∈ items, i.IsText) := by
  rw [onlyItems_eq]
  cases hv : onlyValue? entries with
  | none => exact ⟨none, rfl, by simp⟩
  | some v =>
    obtain ⟨items, heq, htexts⟩ := exists_itemsOf (h v hv)
    exact ⟨some items, by rw [Option.elim_some, heq]; rfl, by simpa using htexts⟩

theorem exists_readNames_iff {only : Option (List Value)} {disabled : List Value} :
    (∃ names, readNames only disabled = .ok names) ↔
      (∀ items ∈ only, ∀ i ∈ items, i.IsText) ∧ ∀ i ∈ disabled, i.IsText := by
  unfold readNames
  rw [Reading.exists_both_iff, Reading.exists_under_iff, Reading.exists_items_text_iff]
  cases only with
  | none => simp
  | some items =>
    simp only [Reading.exists_under_iff, Reading.exists_map_iff, Reading.exists_items_text_iff,
      Option.mem_def, Option.some.injEq, forall_eq']

/-- All rules that a mapping names, to run or not to run, are named by texts. -/
def NamesTexts (entries : List (Value × Value)) : Prop :=
  (∀ v ∈ disabledValue? entries, v.HasTexts) ∧ ∀ v ∈ onlyValue? entries, v.HasTexts

/-- A rule refuses the options that a mapping has for it. -/
def Misconfigures (registry : Registry) (entries : List (Value × Value)) : Prop :=
  (∀ v ∈ disabledValue? entries, v.HasItems) ∧ ∃ f, readRules registry entries = .error f

/-- A mapping names rules by something that is no list, or by something that is no text. -/
def Misnames (registry : Registry) (entries : List (Value × Value)) : Prop :=
  (∃ v ∈ disabledValue? entries, ¬v.HasItems) ∨
    (∃ read, readRules registry entries = .ok read) ∧ ¬NamesTexts entries

theorem mapping_cases (registry : Registry) (entries : List (Value × Value)) :
    Misconfigures registry entries ∨ Misnames registry entries ∨
      (∃ read, readRules registry entries = .ok read) ∧ NamesTexts entries := by
  by_cases hitems : ∀ v ∈ disabledValue? entries, v.HasItems
  · cases hread : readRules registry entries with
    | error f => exact .inl ⟨hitems, f, hread⟩
    | ok read =>
      by_cases htexts : NamesTexts entries
      · exact .inr (.inr ⟨⟨read, rfl⟩, htexts⟩)
      · exact .inr (.inl (.inr ⟨⟨read, hread⟩, htexts⟩))
  · exact .inr (.inl (.inl (by simpa using hitems)))

open CommandLine (isReported)

theorem isReported_of_configure {k : RuleKind} {options : Value} {f : Fault}
    (h : k.configure options = .error f) : isReported f := by
  unfold RuleKind.configure at h
  dsimp only at h
  split at h
  next => cases Except.error.inj h; rfl
  next =>
    split at h
    next => cases h
    next => cases Except.error.inj h; rfl

theorem bind_eq_error {α β : Type} {outcome : Except Fault α} {next : α → Except Fault β}
    {f : Fault} (h : outcome >>= next = .error f) :
    outcome = .error f ∨ ∃ a, next a = .error f := by
  cases outcome with
  | error g =>
    cases Except.error.inj h
    exact .inl rfl
  | ok a => exact .inr ⟨a, h⟩

/-- What a rule says against its options is reported. -/
theorem isReported_of_readRules {f : Fault} (h : readRules registry entries = .error f) :
    isReported f := by
  induction entries with
  | nil => cases h
  | cons entry rest ih =>
    rw [readRules] at h
    split at h
    next => exact ih h
    next =>
      split at h
      next =>
        rcases bind_eq_error h with hrest | ⟨⟨rules, warnings⟩, ⟨⟩⟩
        exact ih hrest
      next =>
        rcases bind_eq_error h with hrule | ⟨rule, h⟩
        · exact isReported_of_configure hrule
        · rcases bind_eq_error h with hrest | ⟨⟨rules, warnings⟩, ⟨⟩⟩
          exact ih hrest

theorem ofMapping_of_misconfigures (h : Misconfigures registry entries) :
    ∃ f, ofMapping entries registry = .error f ∧ isReported f := by
  obtain ⟨hitems, f, hread⟩ := h
  obtain ⟨disabled, hdisabled, -⟩ := exists_disabledItems hitems
  refine ⟨f, ?_, isReported_of_readRules hread⟩
  rw [ofMapping, hdisabled, hread]
  rfl

theorem ofMapping_of_namesTexts {read : List Rule × List Text}
    (hread : readRules registry entries = .ok read) (h : NamesTexts entries) :
    ∃ c w, ofMapping entries registry = .ok (c, w) := by
  obtain ⟨disabled, hdisabled, hd⟩ := exists_disabledItems fun v hv => (h.1 v hv).hasItems
  obtain ⟨only, honly, ho⟩ := exists_onlyItems fun v hv => (h.2 v hv).hasItems
  obtain ⟨names, hnames⟩ := exists_readNames_iff.mpr ⟨ho.mp h.2, hd.mp h.1⟩
  rw [ofMapping, hdisabled, hread, honly]
  simp only [bind, Except.bind, hnames]
  exact ⟨_, _, rfl⟩

/-- Rules that are not named by lists of texts make no configuration, and nothing is reported. -/
theorem ofMapping_of_misnames (h : Misnames registry entries) :
    ∃ f, ofMapping entries registry = .error f ∧ isReported f = false := by
  -- Which fault it is depends on the reader that meets it first; none of them is reported.
  rcases h with hnone | ⟨⟨read, hread⟩, htexts⟩
  · refine ⟨.noItems, ?_, rfl⟩
    rw [ofMapping, disabledItems_eq_error hnone]
    rfl
  · by_cases hitems : ∀ v ∈ disabledValue? entries, v.HasItems
    · obtain ⟨disabled, hdisabled, hd⟩ := exists_disabledItems hitems
      by_cases honly : ∀ v ∈ onlyValue? entries, v.HasItems
      · obtain ⟨only, honly, ho⟩ := exists_onlyItems honly
        cases hnames : readNames only disabled with
        | ok names =>
          obtain ⟨hotexts, hdtexts⟩ := exists_readNames_iff.mp ⟨names, hnames⟩
          exact absurd ⟨hd.mpr hdtexts, ho.mpr hotexts⟩ htexts
        | error es =>
          refine ⟨.invalid "Configuration".toList es, ?_, rfl⟩
          rw [ofMapping, hdisabled, hread, honly]
          simp only [bind, Except.bind, hnames]
          rfl
      · refine ⟨.noItems, ?_, rfl⟩
        rw [ofMapping, hdisabled, hread, onlyItems_eq_error (by simpa using honly)]
        rfl
    · refine ⟨.noItems, ?_, rfl⟩
      rw [ofMapping, disabledItems_eq_error (by simpa using hitems)]
      rfl

theorem mapError_read {store : Store} {path : Path} {bytes : Bytes}
    (hread : store.read path = .ok bytes) :
    (store.read path).mapError (fun f => Fault.store f path) = .ok bytes := by
  rw [hread]
  rfl

variable [DocumentReader]

/-- What the document in a text says. -/
def document (text : Text) : Except DocumentFault Value :=
  DocumentReader.read (Text.withLineFeeds text)

/-- Loading a configuration file ends with a message: it cannot be read, is malformed, says
something that is no mapping, or has options that a rule refuses. -/
def Refuses (registry : Registry) (store : Store) (path : Path) : Prop :=
  (∃ f, store.read path = .error f) ∨
    ∃ bytes text, store.read path = .ok bytes ∧ Text.decode? bytes = some text ∧
      ((∃ reason, document text = .error (.malformed reason)) ∨
        (∃ v, document text = .ok v ∧ v.isVoid = false ∧ ∀ entries, v ≠ .map entries) ∨
        ∃ entries, document text = .ok (.map entries) ∧ Misconfigures registry entries)

/-- Loading a configuration file ends without a word: its bytes are no text, it writes a value that
cannot be made, or its mapping does not name rules by lists of texts. -/
def Silences (registry : Registry) (store : Store) (path : Path) : Prop :=
  ∃ bytes, store.read path = .ok bytes ∧
    (Text.decode? bytes = none ∨
      ∃ text, Text.decode? bytes = some text ∧
        ((∃ reason, document text = .error (.impossible reason)) ∨
          ∃ entries, document text = .ok (.map entries) ∧ Misnames registry entries))

variable {store : Store} {path : Path}

/-- A file that holds a text is what the document in it says. -/
theorem ofFile_of_text (registry : Registry) {bytes : Bytes} {text : Text}
    (hread : store.read path = .ok bytes) (htext : Text.decode? bytes = some text) :
    ofFile store path registry = match document text with
      | .error (.malformed reason) => .error (.configurationUnreadable path reason)
      | .error (.impossible reason) => .error (.impossibleValue reason)
      | .ok (.map entries) => ofMapping entries registry
      | .ok v => if v.isVoid then ofMapping [] registry
        else .error (.configurationNoMapping path) := by
  unfold ofFile
  rw [mapError_read hread]
  simp only [bind, Except.bind, htext, pure, Except.pure, document]
  rfl

theorem ofFile_of_no_mapping (registry : Registry) {bytes : Bytes} {text : Text} {v : Value}
    (hread : store.read path = .ok bytes) (htext : Text.decode? bytes = some text)
    (hv : document text = .ok v) (hmap : ∀ entries, v ≠ .map entries) :
    ofFile store path registry = if v.isVoid then ofMapping [] registry
      else .error (.configurationNoMapping path) := by
  rw [ofFile_of_text registry hread htext, hv]
  cases v with
  | map entries => exact absurd rfl (hmap entries)
  | _ => rfl

theorem ofFile_of_refuses {registry : Registry} (h : Refuses registry store path) :
    ∃ f, ofFile store path registry = .error f ∧ isReported f := by
  rcases h with ⟨f, hread⟩ | ⟨bytes, text, hread, htext, hrefused⟩
  · refine ⟨.store f path, ?_, rfl⟩
    rw [ofFile, hread]
    rfl
  · rcases hrefused with ⟨reason, hv⟩ | ⟨v, hv, hvoid, hmap⟩ | ⟨entries, hv, hmisconfigures⟩
    · exact ⟨_, by rw [ofFile_of_text registry hread htext, hv], rfl⟩
    · refine ⟨.configurationNoMapping path, ?_, rfl⟩
      rw [ofFile_of_no_mapping registry hread htext hv hmap, if_neg (by simp [hvoid])]
    · rw [ofFile_of_text registry hread htext, hv]
      exact ofMapping_of_misconfigures hmisconfigures

theorem ofFile_of_silences {registry : Registry} (h : Silences registry store path) :
    ∃ f, ofFile store path registry = .error f ∧ isReported f = false := by
  obtain ⟨bytes, hread, htext | ⟨text, htext, ⟨reason, hv⟩ | ⟨entries, hv, hmisnames⟩⟩⟩ := h
  · refine ⟨.undecodable, ?_, rfl⟩
    unfold ofFile
    rw [mapError_read hread]
    simp only [bind, Except.bind, htext]
    rfl
  · exact ⟨_, by rw [ofFile_of_text registry hread htext, hv], rfl⟩
  · rw [ofFile_of_text registry hread htext, hv]
    exact ofMapping_of_misnames hmisnames

/-- What a document says is no value, is refused, ends a run without a word, or makes a
configuration. -/
theorem document_cases (registry : Registry) {bytes : Bytes} {text : Text}
    (hread : store.read path = .ok bytes) (htext : Text.decode? bytes = some text) :
    Refuses registry store path ∨ Silences registry store path ∨
      ∃ c w, ofFile store path registry = .ok (c, w) := by
  cases hv : document text with
  | error f =>
    cases f with
    | malformed reason => exact .inl (.inr ⟨bytes, text, hread, htext, .inl ⟨reason, hv⟩⟩)
    | impossible reason =>
      exact .inr (.inl ⟨bytes, hread, .inr ⟨text, htext, .inl ⟨reason, hv⟩⟩⟩)
  | ok v =>
    by_cases hmap : ∀ entries, v ≠ .map entries
    · by_cases hvoid : v.isVoid
      · have hempty : ofMapping [] registry = .ok ({ registry }, []) := rfl
        refine .inr (.inr ⟨{ registry }, [], ?_⟩)
        rw [ofFile_of_no_mapping registry hread htext hv hmap, if_pos hvoid, hempty]
      · have hsays : v.isVoid = false := by simpa using hvoid
        exact .inl (.inr ⟨bytes, text, hread, htext, .inr (.inl ⟨v, hv, hsays, hmap⟩)⟩)
    · obtain ⟨entries, rfl⟩ := by simpa using hmap
      rcases mapping_cases registry entries with h | h | ⟨⟨read, hread'⟩, htexts⟩
      · exact .inl (.inr ⟨bytes, text, hread, htext, .inr (.inr ⟨entries, hv, h⟩)⟩)
      · exact .inr (.inl ⟨bytes, hread, .inr ⟨text, htext, .inr ⟨entries, hv, h⟩⟩⟩)
      · rw [ofFile_of_text registry hread htext, hv]
        exact .inr (.inr (ofMapping_of_namesTexts hread' htexts))

/-- A file is refused, ends a run without a word, or makes a configuration. -/
theorem file_cases (registry : Registry) (store : Store) (path : Path) :
    Refuses registry store path ∨ Silences registry store path ∨
      ∃ c w, ofFile store path registry = .ok (c, w) := by
  cases hread : store.read path with
  | error f => exact .inl (.inl ⟨f, hread⟩)
  | ok bytes =>
    cases htext : Text.decode? bytes with
    | none => exact .inr (.inl ⟨bytes, hread, .inl htext⟩)
    | some text => exact document_cases registry hread htext

end Configuration

end StyleRules
