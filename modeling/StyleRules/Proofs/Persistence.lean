import StyleRules.Proofs.Acceptance
import StyleRules.Proofs.Storage
import StyleRules.SyntaxTree.Comparison

namespace StyleRules

namespace Text

/-- Bytes that are read as a text are the encoding of that text, byte for byte. -/
theorem encode_of_decode? {bytes : Bytes} {text : Text} (h : decode? bytes = some text) :
    encode text = bytes := by
  obtain ⟨characters, hdecode, rfl⟩ := Option.map_eq_some_iff.mp h
  have hsome : bytes.toByteArray.utf8Decode?.isSome := by rw [hdecode]; rfl
  have hencode := @ByteArray.utf8Encode_get_utf8Decode? bytes.toByteArray hsome
  simp only [hdecode, Option.get_some, List.utf8Encode] at hencode
  have hbytes := congrArg (fun b : ByteArray => b.data.toList) hencode
  simpa [encode] using hbytes

end Text

namespace Desk

/-- New contents of a text in memory are only taken over; those of a stored file are written
first. -/
theorem replaceContents_eq_ok {desk written : Desk} {contents : Text}
    (h : desk.replaceContents contents = .ok written) :
    (desk.file.path = none ∧ written = { desk with file := { desk.file with contents } }) ∨
      ∃ path store, desk.file.path = some path ∧
        desk.store.write path (Text.encode contents) = .ok store ∧
        written = { desk with file := { desk.file with contents }, store } := by
  unfold replaceContents at h
  split at h
  next hpath =>
    left
    exact ⟨hpath, (Except.ok.inj h).symm⟩
  next path hpath =>
    right
    cases hw : desk.store.write path (Text.encode contents) with
    | error f => rw [hw] at h; cases h
    | ok store =>
      rw [hw] at h
      exact ⟨path, store, hpath, hw, (Except.ok.inj h).symm⟩

end Desk

namespace Rule

theorem bracketing_correctsPlainly : bracketing.CorrectsPlainly := ⟨_, rfl, rfl, rfl⟩

variable [Parser]

/-- Making edits fails and changes nothing, or finds nothing to do, or replaces the contents. -/
theorem makeEdits_cases (r : Rule) (desk : Desk) :
    ∃ cache, (∃ f, r.makeEdits desk = (.error f, { desk with cache })) ∨
      r.makeEdits desk = (.ok [], { desk with cache }) ∨
      ∃ contents written made, desk.replaceContents contents = .ok written ∧ made ≠ [] ∧
        r.makeEdits desk = (.ok made, { written with cache }) := by
  cases hp : r.proposals desk.file desk.cache with
  | mk proposed read =>
    cases proposed with
    | error f => exact ⟨read, .inl ⟨f, by rw [makeEdits, hp]⟩⟩
    | ok edits =>
      refine ⟨(read.lineIndex desk.file.contents).2, ?_⟩
      simp only [makeEdits, hp]
      cases r.acceptable desk.file (read.lineIndex desk.file.contents).1 edits with
      | nil => exact .inr (.inl rfl)
      | cons k ks =>
        simp only [Desk.replaceContents_cache]
        cases hw : desk.replaceContents
            (Edit.applyAll desk.file.contents ((k :: ks).map (·.1))) with
        | error f => exact .inl ⟨f, rfl⟩
        | ok written => exact .inr (.inr ⟨_, written, _, hw, by simp, rfl⟩)

/-- A correction fails and changes nothing, or finds nothing to do, or replaces the contents. -/
theorem correct_cases {r : Rule} (plain : r.CorrectsPlainly) (desk : Desk) :
    ∃ cache, (∃ f, r.correct desk = (.error f, { desk with cache })) ∨
      r.correct desk = (.ok [], { desk with cache }) ∨
      ∃ contents written made, desk.replaceContents contents = .ok written ∧
        r.correct desk = (.ok made, { written with cache }) := by
  rw [correct_eq_makeEdits plain]
  obtain ⟨cache, hf | hn | ⟨contents, written, made, hw, -, hc⟩⟩ := r.makeEdits_cases desk
  · exact ⟨cache, .inl hf⟩
  · exact ⟨cache, .inr (.inl hn)⟩
  · exact ⟨cache, .inr (.inr ⟨contents, written, made, hw, hc⟩)⟩

end Rule

namespace Desk

/-- What happens at a desk. -/
inductive Event where
  | load (path : Path) (dialect : Dialect)
  | replace (contents : Text)
  | correct (rule : Rule) (plain : rule.CorrectsPlainly)
  /-- Others change the store: they write and remove whatever they like. -/
  | others (change : Store → Store)

/-- The stored bytes of the file at hand are the UTF-8 encoding of its contents in memory. -/
def Synced (desk : Desk) : Prop :=
  ∀ path, desk.file.path = some path → desk.store.read path = .ok (Text.encode desk.file.contents)

variable {desk : Desk}

theorem synced_of_replaceContents {written : Desk} {contents : Text}
    (h : desk.replaceContents contents = .ok written) : written.Synced := by
  rcases replaceContents_eq_ok h with ⟨hnone, rfl⟩ | ⟨path, store, hpath, hw, rfl⟩
  · intro p hp
    rw [hnone] at hp
    cases hp
  · intro p hp
    rw [hpath] at hp
    cases hp
    exact Store.read_write hw

theorem load_eq_ok {store : Store} {path : Path} {dialect : Dialect} {file : SourceFile}
    (h : SourceFile.load store path dialect = .ok file) :
    file.path = some path ∧ file.dialect = dialect ∧
      store.read path = .ok (Text.encode file.contents) := by
  unfold SourceFile.load at h
  cases hread : store.read path with
  | error f => rw [hread] at h; cases h
  | ok bytes =>
    rw [hread] at h
    dsimp only at h
    split at h
    next contents hdecode =>
      cases Except.ok.inj h
      rw [Text.encode_of_decode? hdecode]
      exact ⟨rfl, rfl, rfl⟩
    next => cases h

theorem entryAt?_replaceContents {written : Desk} {contents : Text} {q : Path}
    (h : desk.replaceContents contents = .ok written) (hq : desk.file.path ≠ some q) :
    written.store.entryAt? q = desk.store.entryAt? q := by
  rcases replaceContents_eq_ok h with ⟨-, rfl⟩ | ⟨path, store, hpath, hw, rfl⟩
  · rfl
  · apply Store.entryAt?_write_of_ne hw
    rintro rfl
    exact hq hpath

section Events

variable [Parser]

/-- What comes of an event, and the desk after it. -/
def meet (desk : Desk) : Event → Except Fault Unit × Desk
  | .load path dialect =>
    match SourceFile.load desk.store path dialect with
    | .error f => (.error f, desk)
    | .ok file => (.ok (), { desk with file })
  | .replace contents =>
    match desk.replaceContents contents with
    | .error f => (.error f, desk)
    | .ok written => (.ok (), written)
  | .correct rule _ => ((rule.correct desk).1.map fun _ => (), (rule.correct desk).2)
  | .others change => (.ok (), { desk with store := change desk.store })

/-- The desk after events one after the other, whatever comes of each. -/
def after (desk : Desk) : List Event → Desk
  | [] => desk
  | e :: rest => (desk.meet e).2.after rest

/-- Through all the events others leave the bytes of the file at hand alone. -/
def Undisturbed (desk : Desk) : List Event → Prop
  | [] => True
  | .others change :: rest =>
    (∀ path, desk.file.path = some path → (change desk.store).read path = desk.store.read path) ∧
      (desk.meet (.others change)).2.Undisturbed rest
  | e :: rest => (desk.meet e).2.Undisturbed rest

/-- An event that fails leaves the file in memory and the store as they were. -/
theorem meet_eq_error {e : Event} {f : Fault} (h : (desk.meet e).1 = .error f) :
    (desk.meet e).2.file = desk.file ∧ (desk.meet e).2.store = desk.store := by
  cases e with
  | load path dialect =>
    simp only [meet] at h ⊢
    cases hload : SourceFile.load desk.store path dialect with
    | error g => exact ⟨rfl, rfl⟩
    | ok file => rw [hload] at h; cases h
  | replace contents =>
    simp only [meet] at h ⊢
    cases hreplace : desk.replaceContents contents with
    | error g => exact ⟨rfl, rfl⟩
    | ok written => rw [hreplace] at h; cases h
  | correct rule plain =>
    simp only [meet] at h ⊢
    obtain ⟨cache, ⟨g, hc⟩ | hc | ⟨contents, written, made, -, hc⟩⟩ := rule.correct_cases plain desk
    · rw [hc]
      exact ⟨rfl, rfl⟩
    · rw [hc]
      exact ⟨rfl, rfl⟩
    · rw [hc] at h
      cases h
  | others change => cases h

/-- What is done with a file changes nothing at any other path. -/
theorem entryAt?_meet {e : Event} {q : Path} (own : ∀ change, e ≠ .others change)
    (hq : desk.file.path ≠ some q) :
    (desk.meet e).2.store.entryAt? q = desk.store.entryAt? q := by
  cases e with
  | load path dialect =>
    simp only [meet]
    cases SourceFile.load desk.store path dialect <;> rfl
  | replace contents =>
    simp only [meet]
    cases hreplace : desk.replaceContents contents with
    | error f => rfl
    | ok written => exact entryAt?_replaceContents hreplace hq
  | correct rule plain =>
    simp only [meet]
    obtain ⟨cache, ⟨g, hc⟩ | hc | ⟨contents, written, made, hw, hc⟩⟩ :=
      rule.correct_cases plain desk
    · rw [hc]
    · rw [hc]
    · have hkept := entryAt?_replaceContents hw hq
      rw [hc]
      exact hkept
  | others change => exact absurd rfl (own change)

/-- Unless others disturb it, a file in memory stays what its stored bytes say. -/
theorem Synced.meet (h : desk.Synced) {e : Event} (undisturbed : desk.Undisturbed [e]) :
    (desk.meet e).2.Synced := by
  cases e with
  | load path dialect =>
    simp only [Desk.meet]
    cases hload : SourceFile.load desk.store path dialect with
    | error f => exact h
    | ok file =>
      obtain ⟨hpath, -, hread⟩ := load_eq_ok hload
      intro p hp
      cases hpath.symm.trans hp
      exact hread
  | replace contents =>
    simp only [Desk.meet]
    cases hreplace : desk.replaceContents contents with
    | error f => exact h
    | ok written => exact synced_of_replaceContents hreplace
  | correct rule plain =>
    simp only [Desk.meet]
    obtain ⟨cache, ⟨g, hc⟩ | hc | ⟨contents, written, made, hw, hc⟩⟩ :=
      rule.correct_cases plain desk
    · rw [hc]
      exact h
    · rw [hc]
      exact h
    · have hsynced := synced_of_replaceContents hw
      rw [hc]
      exact hsynced
  | others change =>
    intro p hp
    exact (undisturbed.1 p hp).trans (h p hp)

theorem undisturbed_cons {e : Event} {rest : List Event} :
    desk.Undisturbed (e :: rest) ↔
      desk.Undisturbed [e] ∧ (desk.meet e).2.Undisturbed rest := by
  cases e <;> simp [Undisturbed]

theorem Synced.after (h : desk.Synced) {events : List Event}
    (undisturbed : desk.Undisturbed events) : (desk.after events).Synced := by
  induction events generalizing desk with
  | nil => exact h
  | cons e rest ih =>
    obtain ⟨hfirst, hrest⟩ := undisturbed_cons.mp undisturbed
    exact ih (h.meet hfirst) hrest

theorem correct_eq_ok {rule : Rule} {plain : rule.CorrectsPlainly} {edits : List Edit}
    (proposed : (rule.proposals desk.file desk.cache).1 = .ok edits) :
    (rule.accepted desk.file edits = [] →
        (desk.meet (.correct rule plain)).1 = .ok () ∧
          (desk.meet (.correct rule plain)).2.file = desk.file ∧
          (desk.meet (.correct rule plain)).2.store = desk.store) ∧
      (rule.accepted desk.file edits ≠ [] → (desk.meet (.correct rule plain)).1 = .ok () →
        (desk.meet (.correct rule plain)).2.Synced) := by
  obtain ⟨cache, hc⟩ := Rule.correct_of_proposed plain proposed
  constructor
  · intro hnone
    rw [if_pos hnone] at hc
    simp [meet, hc, Except.map]
  · intro hsome hok
    rw [if_neg hsome] at hc
    simp only [meet] at hok ⊢
    cases hw : desk.replaceContents
        (Edit.applyAll desk.file.contents (rule.accepted desk.file edits).reverse) with
    | error f =>
      rw [hw] at hc
      rw [hc] at hok
      cases hok
    | ok written =>
      have hsynced := synced_of_replaceContents hw
      rw [hw] at hc
      rw [hc]
      exact hsynced

/-- Whatever has happened before, what succeeds brings the stored bytes and the contents in memory
together, until others change the bytes, and what fails changes neither. -/
theorem memory_agrees_with_store (start : Desk) (events : List Event) :
    let desk := start.after events
    (∀ path dialect, (desk.meet (.load path dialect)).1 = .ok () →
      let loaded := (desk.meet (.load path dialect)).2
      loaded.file.path = some path ∧ loaded.store = desk.store ∧
        loaded.store.read path = .ok (Text.encode loaded.file.contents)) ∧
      (∀ path contents, desk.file.path = some path →
        (desk.meet (.replace contents)).1 = .ok () →
        let written := (desk.meet (.replace contents)).2
        written.file = { desk.file with contents } ∧
          written.store.read path = .ok (Text.encode contents)) ∧
      (∀ rule plain edits, (rule.proposals desk.file desk.cache).1 = .ok edits →
        (rule.accepted desk.file edits = [] →
            (desk.meet (.correct rule plain)).1 = .ok () ∧
              (desk.meet (.correct rule plain)).2.file = desk.file ∧
              (desk.meet (.correct rule plain)).2.store = desk.store) ∧
          (rule.accepted desk.file edits ≠ [] → (desk.meet (.correct rule plain)).1 = .ok () →
            (desk.meet (.correct rule plain)).2.Synced)) ∧
      (∀ later, desk.Synced → desk.Undisturbed later → (desk.after later).Synced) ∧
      (∀ e f, (desk.meet e).1 = .error f →
        (desk.meet e).2.file = desk.file ∧ (desk.meet e).2.store = desk.store) ∧
      ∀ e q, (∀ change, e ≠ .others change) → desk.file.path ≠ some q →
        (desk.meet e).2.store.entryAt? q = desk.store.entryAt? q := by
  intro desk
  refine ⟨?_, ?_, fun rule plain edits => correct_eq_ok, fun later h => h.after,
    fun e f => meet_eq_error, fun e q => entryAt?_meet⟩
  · intro path dialect hok
    simp only [meet] at hok ⊢
    cases hload : SourceFile.load desk.store path dialect with
    | error f => rw [hload] at hok; cases hok
    | ok file =>
      obtain ⟨hpath, -, hread⟩ := load_eq_ok hload
      exact ⟨hpath, rfl, hread⟩
  · intro path contents hpath hok
    simp only [meet] at hok ⊢
    cases hreplace : desk.replaceContents contents with
    | error f => rw [hreplace] at hok; cases hok
    | ok written =>
      have hfile := replaceContents_file hreplace
      have hsynced := synced_of_replaceContents hreplace
      refine ⟨hfile, ?_⟩
      rw [hsynced path (by rw [hfile]; exact hpath), hfile]

end Events

open scoped Comparison

theorem memory_agrees_with_store_bracketing :
    let path : Path := ⟨["d".toList, "a.py".toList]⟩
    let start : Desk :=
      { file := { contents := [] }
        store :=
          { entries :=
              [(path.parent, .directory), (path, .file (Text.encode "ok\r\nno".toList))] } }
    let correction : Event := .correct Rule.bracketing Rule.bracketing_correctsPlainly
    let gone : Event := .others fun s => (s.remove path.parent).toOption.getD s
    let garbled : Event := .others fun s => (s.write path [0xff]).toOption.getD s
    let loaded := start.after [.load path .python]
    let stuck := start.after [.load path .python, gone]
    let idle := start.after [.load path .python, .replace "no\r".toList, garbled]
    (loaded.meet correction).2.store.read path = .ok (Text.encode "(<oy\r\nno".toList) ∧
      (stuck.meet correction).1 = .error (.store .missing path) ∧
      (stuck.meet correction).2.file.contents = "ok\r\nno".toList ∧
      (idle.meet correction).2.store.read path = .ok [0xff] := by
  intro path start correction gone garbled loaded stuck idle
  obtain ⟨-, -, hloaded, -, -, -⟩ := memory_agrees_with_store start [.load path .python]
  obtain ⟨-, -, -, -, hstuck, -⟩ := memory_agrees_with_store start [.load path .python, gone]
  obtain ⟨-, -, hidle, -, -, -⟩ :=
    memory_agrees_with_store start [.load path .python, .replace "no\r".toList, garbled]
  have hfault : (stuck.meet correction).1 = .error (.store .missing path) := by decide +kernel
  refine ⟨?_, hfault, ?_, ?_⟩
  · have hsynced := (hloaded Rule.bracketing Rule.bracketing_correctsPlainly
      [⟨0, 0, ['<']⟩, ⟨0, 0, ['(']⟩, ⟨0, 2, ['X']⟩, ⟨1, 1, ['y']⟩] (by decide +kernel)).2
      (by decide +kernel) (by decide +kernel)
    have hcontents : (loaded.meet correction).2.file.contents = "(<oy\r\nno".toList := by
      decide +kernel
    rw [hsynced path (by decide +kernel), hcontents]
  · rw [(hstuck correction _ hfault).1]
    decide +kernel
  · obtain ⟨-, -, hstore⟩ := (hidle Rule.bracketing Rule.bracketing_correctsPlainly []
      (by decide +kernel)).1 (by decide +kernel)
    rw [hstore]
    decide +kernel

end Desk

end StyleRules
