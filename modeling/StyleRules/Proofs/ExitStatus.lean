import StyleRules.CommandLine.Requests
import StyleRules.Proofs.ConfigurationFiles
import StyleRules.SyntaxTree.Comparison
import StyleRules.Yaml

namespace StyleRules

theorem StoreFault.message_ne_nil (f : StoreFault) : f.message ≠ [] := by
  cases f <;> exact List.cons_ne_nil _ _

namespace Fault

theorem countErrors_ne_nil (subject : Text) (errors : List FieldError) :
    countErrors subject errors ≠ [] := by
  unfold countErrors
  split <;> simp

theorem aboutRule_ne_nil (rule reason : Text) : aboutRule rule reason ≠ [] :=
  List.cons_ne_nil _ _

/-- Every fault has a wording. -/
theorem message_ne_nil (f : Fault) : f.message ≠ [] := by
  cases f with
  | invalid subject errors => exact countErrors_ne_nil subject errors
  | ruleRejected rule subject errors => exact aboutRule_ne_nil rule _
  | ruleMisconfigured rule found => exact aboutRule_ne_nil rule _
  | store f path =>
    have hprefix := List.append_ne_nil_of_left_ne_nil f.message_ne_nil ": ".toList
    exact List.append_ne_nil_of_left_ne_nil hprefix path.toText
  | _ => exact List.cons_ne_nil _ _

end Fault

namespace CommandLine

variable {s : Setting} {store : Store} {paths : List Path} {file : Option Path}

section Documents

variable [DocumentReader]

/-- The configuration file is refused with a message. -/
def RefusesFile (s : Setting) (store : Store) (file : Option Path) : Prop :=
  ∃ path ∈ file, Configuration.Refuses s.registry store path

/-- The configuration file ends the run without a word. -/
def SilencesFile (s : Setting) (store : Store) (file : Option Path) : Prop :=
  ∃ path ∈ file, Configuration.Silences s.registry store path

/-- Without a file there is always a configuration; a file is refused, ends the run without a
word, or makes one. -/
theorem configuration_cases (s : Setting) (store : Store) (file : Option Path) :
    RefusesFile s store file ∨ SilencesFile s store file ∨
      ∃ c w, configuration s store file = .ok (c, w) := by
  cases file with
  | none => exact .inr (.inr ⟨_, _, rfl⟩)
  | some path =>
    rcases Configuration.file_cases s.registry store path with h | h | h
    · exact .inl ⟨path, rfl, h⟩
    · exact .inr (.inl ⟨path, rfl, h⟩)
    · exact .inr (.inr h)

section Outcomes

variable {run : Configuration → Outcome}

theorem withConfiguration_of_refusesFile (h : RefusesFile s store file) :
    ∃ f, withConfiguration s store file run = failed store f := by
  obtain ⟨path, rfl, hrefuses⟩ := h
  obtain ⟨f, hf, hreported⟩ := Configuration.ofFile_of_refuses hrefuses
  refine ⟨f, ?_⟩
  rw [withConfiguration, configuration, hf]
  exact if_pos hreported

theorem withConfiguration_of_silencesFile (h : SilencesFile s store file) :
    withConfiguration s store file run = { status := 1, store } := by
  obtain ⟨path, rfl, hsilences⟩ := h
  obtain ⟨f, hf, hreported⟩ := Configuration.ofFile_of_silences hsilences
  rw [withConfiguration, configuration, hf]
  exact if_neg (by simp [hreported])

theorem withConfiguration_of_ok {c : Configuration} {w : List Text}
    (h : configuration s store file = .ok (c, w)) :
    withConfiguration s store file run = { run c with warnings := w } := by
  rw [withConfiguration, h]

end Outcomes

/-- An empty file makes the configuration of an empty mapping. -/
theorem configuration_of_empty {path : Path} (empty : DocumentReader.read [] = .ok .null)
    (h : store.read path = .ok []) :
    configuration s store (some path) = .ok ({ registry := s.registry }, []) := by
  have htext : Text.decode? [] = some [] := rfl
  have hfile := Configuration.ofFile_of_no_mapping s.registry h htext empty (by simp)
  exact hfile

end Documents

/-- If each of three endings has its status and one of them takes place, a status tells which. -/
theorem ending_of_status {status : Nat} {zero one two : Prop} (hzero : zero → status = 0)
    (hone : one → status = 1) (htwo : two → status = 2) (hcases : zero ∨ one ∨ two) :
    (status = 0 ↔ zero) ∧ (status = 1 ↔ one) ∧ (status = 2 ↔ two) ∧
      (status = 0 ∨ status = 1 ∨ status = 2) := by
  grind

section Endings

variable [Parser] [DocumentReader]

/-- Diagnosing paths comes to its end: the configuration is read, and these are the diagnostics of
all the files. -/
def Completes (s : Setting) (store : Store) (paths : List Path) (file : Option Path)
    (found : List Diagnostic) : Prop :=
  ∃ c w, configuration s store file = .ok (c, w) ∧ Project.diagnose c store paths = .ok found

/-- The configuration is read, but a file or a rule keeps diagnosing from coming to its end. -/
def Fails (s : Setting) (store : Store) (paths : List Path) (file : Option Path) : Prop :=
  ∃ c w f, configuration s store file = .ok (c, w) ∧ Project.diagnose c store paths = .error f

/-- Diagnosing paths comes to its end, is kept from it by a fault that is reported, or ends
without a word. -/
theorem lint_cases (s : Setting) (store : Store) (paths : List Path) (file : Option Path) :
    (∃ found, Completes s store paths file found) ∨
      (Fails s store paths file ∨ RefusesFile s store file) ∨ SilencesFile s store file := by
  rcases configuration_cases s store file with h | h | ⟨c, w, hc⟩
  · exact .inr (.inl (.inr h))
  · exact .inr (.inr h)
  · cases hd : Project.diagnose c store paths with
    | error f => exact .inr (.inl (.inl ⟨c, w, f, hc, hd⟩))
    | ok found => exact .inl ⟨found, c, w, hc, hd⟩

/-- A run that diagnosed everything prints what it found. -/
theorem lint_of_completes {found : List Diagnostic} (h : Completes s store paths file found) :
    let o := withConfiguration s store file (lint paths store)
    o.status = (if found = [] then 0 else 1) ∧ o.output = found.map Diagnostic.toText ∧
      o.store = store := by
  obtain ⟨c, w, hc, hd⟩ := h
  simp only [withConfiguration_of_ok hc, lint, hd]
  cases found with
  | nil => exact ⟨rfl, rfl, rfl⟩
  | cons d rest => exact ⟨rfl, rfl, rfl⟩

/-- A run that a fault ended says which, and prints nothing else. -/
theorem lint_of_fails_or_refuses (h : Fails s store paths file ∨ RefusesFile s store file) :
    let o := withConfiguration s store file (lint paths store)
    ∃ f : Fault, o.status = 2 ∧ o.errors = [f.message] ∧ o.output = [] ∧ o.store = store := by
  rcases h with ⟨c, w, f, hc, hd⟩ | hrefuses
  · simp only [withConfiguration_of_ok hc, lint, hd]
    exact ⟨f, rfl, rfl, rfl, rfl⟩
  · obtain ⟨f, hf⟩ : ∃ f, withConfiguration s store file (lint paths store) = failed store f :=
      withConfiguration_of_refusesFile hrefuses
    simp only [hf]
    exact ⟨f, rfl, rfl, rfl, rfl⟩

theorem status_of_lint (s : Setting) (store : Store) (paths : List Path) (file : Option Path) :
    let o := withConfiguration s store file (lint paths store)
    (o.status = 0 ↔ Completes s store paths file []) ∧
      (o.status = 1 ↔ (∃ found ≠ [], Completes s store paths file found) ∨
        SilencesFile s store file) ∧
      (o.status = 2 ↔ Fails s store paths file ∨ RefusesFile s store file) ∧
      (o.status = 0 ∨ o.status = 1 ∨ o.status = 2) := by
  apply ending_of_status
  · intro h
    exact (lint_of_completes h).1
  · rintro (⟨found, hne, h⟩ | h)
    · exact (lint_of_completes h).1.trans (if_neg hne)
    · rw [withConfiguration_of_silencesFile h]
  · intro h
    obtain ⟨f, hstatus, -⟩ := lint_of_fails_or_refuses h
    exact hstatus
  · rcases lint_cases s store paths file with ⟨found, h⟩ | h | h
    · by_cases hne : found = []
      · exact .inl (hne ▸ h)
      · exact .inr (.inl (.inl ⟨found, hne, h⟩))
    · exact .inr (.inr h)
    · exact .inr (.inl (.inr h))

theorem store_of_lint (s : Setting) (store : Store) (paths : List Path) (file : Option Path) :
    (withConfiguration s store file (lint paths store)).store = store := by
  rcases lint_cases s store paths file with ⟨found, h⟩ | h | h
  · exact (lint_of_completes h).2.2
  · obtain ⟨f, -, -, -, hstore⟩ := lint_of_fails_or_refuses h
    exact hstore
  · rw [withConfiguration_of_silencesFile h]

/-- The status is 0 if nothing was found, 1 if something was found or the configuration file ended
the run without a word, and 2 if a fault ended it, which a message names. -/
theorem lint_status [ArgumentReader] {arguments : List Text}
    (asked : ArgumentReader.request s store arguments = some (.lint paths file))
    (empty : DocumentReader.read [] = .ok .null) :
    let o := run s store arguments
    (o.status = 0 ↔ Completes s store paths file []) ∧
      (o.status = 1 ↔ (∃ found ≠ [], Completes s store paths file found) ∨
        SilencesFile s store file) ∧
      (o.status = 2 ↔ Fails s store paths file ∨ RefusesFile s store file) ∧
      (o.status = 0 ∨ o.status = 1 ∨ o.status = 2) ∧
      (o.status = 2 → ∃ message ≠ [], o.errors = [message] ∧ o.output = []) ∧
      (SilencesFile s store file → o.errors = [] ∧ o.output = []) ∧
      (∀ found, Completes s store paths file found → o.output = found.map Diagnostic.toText) ∧
      (∀ path, file = some path → store.read path = .ok [] →
        configuration s store file = .ok ({ registry := s.registry }, [])) ∧
      o.store = store := by
  have hrun : run s store arguments = withConfiguration s store file (lint paths store) := by
    rw [run, asked]
    rfl
  rw [hrun]
  obtain ⟨hzero, hone, htwo, hstatus⟩ := status_of_lint s store paths file
  refine ⟨hzero, hone, htwo, hstatus, ?_, ?_, ?_, ?_, store_of_lint s store paths file⟩
  · intro h
    obtain ⟨f, -, herrors, houtput, -⟩ := lint_of_fails_or_refuses (htwo.mp h)
    exact ⟨f.message, f.message_ne_nil, herrors, houtput⟩
  · intro h
    rw [withConfiguration_of_silencesFile h]
    exact ⟨rfl, rfl⟩
  · intro found h
    exact (lint_of_completes h).2.1
  · rintro path rfl hread
    exact configuration_of_empty empty hread

end Endings

/-- A module, and a configuration file with the given bytes. -/
def configuredStore (bytes : Bytes) : Store :=
  { entries :=
      [(⟨["a.py".toList]⟩, .file (Text.encode "x = 1\n".toList)),
        (⟨["c.yml".toList]⟩, .file bytes)] }

/-- Asks to diagnose the module under the configuration file. -/
def configuredArguments : List Text :=
  ["lint", "/a.py", "--config", "/c.yml"].map String.toList

open scoped Comparison Request Yaml

theorem lint_status_no_mapping :
    let o := run { directory := .root, scratch := .root } (configuredStore (Text.encode ['7']))
      configuredArguments
    o.status = 2 ∧ o.output = [] ∧ o.errors ≠ [] := by
  have hasked : ArgumentReader.request { directory := .root, scratch := .root }
      (configuredStore (Text.encode ['7'])) configuredArguments =
      some (.lint [⟨["a.py".toList]⟩] (some ⟨["c.yml".toList]⟩)) := rfl
  have hrefuses : RefusesFile { directory := .root, scratch := .root }
      (configuredStore (Text.encode ['7'])) (some ⟨["c.yml".toList]⟩) := by
    have hdocument : Configuration.document ['7'] = .ok (.int 7) := rfl
    refine ⟨_, rfl, .inr ⟨_, ['7'], rfl, Text.decode?_encode _,
      .inr (.inl ⟨_, hdocument, rfl, ?_⟩)⟩⟩
    simp
  obtain ⟨-, -, htwo, -, hmessage, -⟩ := lint_status hasked rfl
  have hstatus := htwo.mpr (.inr hrefuses)
  obtain ⟨message, -, herrors, houtput⟩ := hmessage hstatus
  exact ⟨hstatus, houtput, by rw [herrors]; exact List.cons_ne_nil _ _⟩

/-- A configuration file whose bytes are no text ends the run with the status of a run that found
something, and without a message. -/
theorem undecodable_configuration_exits_silently :
    let store := configuredStore [0xff]
    let o := run { directory := .root, scratch := .root } store configuredArguments
    store.read ⟨["c.yml".toList]⟩ = .ok [0xff] ∧ Text.decode? [0xff] = none ∧
      ArgumentReader.request { directory := .root, scratch := .root } store configuredArguments =
        some (.lint [⟨["a.py".toList]⟩] (some ⟨["c.yml".toList]⟩)) ∧
      o.status = 1 ∧ o.output = [] ∧ o.errors = [] :=
  ⟨rfl, rfl, rfl, rfl, rfl, rfl⟩

end CommandLine

end StyleRules
