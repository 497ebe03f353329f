import ClassLang.Proofs.Blame
import ClassLang.Proofs.JsonText
import ClassLang.Proofs.Lowerable
import ClassLang.Proofs.Nesting
import ClassLang.Report.Json

/-!
# Where diagnostics point

The errors of all stages up to the check, and the error of an entry constructor with arguments, stand at
stretches of the text (`Image.ofSource_error_places`). So the lines and columns that are looked up for a
diagnostic in the text are those that the error carries, and those of its one-line form.
-/

namespace ClassLang

/-! ## Places of errors -/

/-- The places of the errors of a failure, if errors of its kind have places. -/
def Failure.places? : Failure → Option (List Span)
  | .lexical errors => some (errors.map (·.span))
  | .syntactic errors => some (errors.map (·.span))
  | .semantic errors => some (errors.map (·.span))
  | .build (.entryArguments _ span) => some [span]
  | .build _ | .runtime _ => none

/-- If the constructor of the entry class takes arguments, the error stands at its place in the tree. -/
theorem Lower.entryArguments_mem_spans {p : Program Span} {a : Analysis} {count : Nat} {s : Span}
    (ha : Check.program p = .ok a) (h : Lower.image a = .error (.entryArguments count s)) :
    s ∈ p.outline.spans := by
  have hsited := Check.program_sited ha
  have hrun : (parts a).run .empty = .error (.entryArguments count s) := by
    cases hrun : (parts a).run .empty <;> rw [image, hrun] at h <;> cases h
    rfl
  cases hentry : (a.classes.find? entryClass).filter (!a.classes.isBuiltin ·) with
  | none =>
    have hmissing : (parts a).run .empty = .error .missingEntry := by
      rw [parts, entryConstruct, hentry]
      rfl
    rw [hrun] at hmissing
    cases hmissing
  | some id =>
    obtain ⟨hfind, huser⟩ := Option.filter_eq_some_iff.mp hentry
    have hbuiltin : a.classes.isBuiltin id = false := by simpa using huser
    have hid := hsited.isBuiltin hbuiltin
    by_cases hparams : ∀ m, a.classes.constructor? id = some m → m.params = []
    · have hne : id ≠ TypeId.unit := fun heq => absurd (heq ▸ hid) (by decide)
      obtain ⟨hok, hdefect⟩ := image_of_entry (Check.program_wellTyped ha) hfind hbuiltin hne hparams
      by_cases hl : a.Lowerable
      · obtain ⟨image, himage⟩ := hok.mpr hl
        rw [h] at himage
        cases himage
      · obtain ⟨defect, himage⟩ := hdefect hl
        rw [h] at himage
        cases himage
    · push Not at hparams
      obtain ⟨m, hm, hne⟩ := hparams
      have herror : (parts a).run .empty = .error (.entryArguments m.params.length m.span) := by
        rw [parts, entryConstruct, hentry]
        simp only [hm, List.isEmpty_iff, hne]
        rfl
      rw [hrun] at herror
      cases herror
      exact hsited.method hid hm

section

variable {source : String} {f : Failure} {p : Program Span} {spans : List Span}

theorem Program.ofSource_error_places (h : Program.ofSource source = .error f)
    (hspans : f.places? = some spans) : ∀ s ∈ spans, s.In source.toList := by
  rw [Program.ofSource, bind_eq_error] at h
  rcases h with h | ⟨ts, hts, h⟩
  · rw [significantTokens, mapError_eq_error] at h
    obtain ⟨es, hes, rfl⟩ := h
    cases hspans
    cases hlex : tokenize source <;> rw [hlex] at hes <;> cases hes
    exact List.forall_mem_map.mpr (tokenize_errors_placed hlex)
  · rw [mapError_eq_error] at h
    obtain ⟨es, hes, rfl⟩ := h
    cases hspans
    obtain ⟨us, hus, rfl⟩ := significantTokens_eq_ok.mp hts
    obtain ⟨hplaced, _, hend⟩ := significantBreaks_placed hus
    exact List.forall_mem_map.mpr (Grammar.program_errors_placed hplaced hend hes)

theorem Program.ofSource_places (h : Program.ofSource source = .ok p) :
    ∀ s ∈ p.outline.spans, s.In source.toList := fun s hs =>
  ((Program.ofSource_nested h).of_mem_spans s hs).1

/-- The errors of a text that has no image stand at stretches of it. -/
theorem Image.ofSource_error_places (h : Image.ofSource source = .error f)
    (hspans : f.places? = some spans) : ∀ s ∈ spans, s.In source.toList := by
  simp only [Image.ofSource, Analysis.ofSource, bind_eq_error, bind_eq_ok, mapError_eq_error,
    mapError_eq_ok] at h
  rcases h with (h | ⟨p, hp, es, hes, rfl⟩) | ⟨a, ⟨p, hp, ha⟩, e, he, rfl⟩
  · exact Program.ofSource_error_places h hspans
  · cases hspans
    exact List.forall_mem_map.mpr fun e hmem =>
      Program.ofSource_places hp _ (Check.program_blames hes e hmem)
  · cases e <;> cases hspans
    exact List.forall_mem_singleton.mpr
      (Program.ofSource_places hp _ (Lower.entryArguments_mem_spans ha he))

end

/-! ## Entries of objects -/

namespace Json

/-- The value of the first entry of an object with a name. -/
def find? (name : String) : Json → Option Json
  | .object fields => fields.lookup (encode name)
  | _ => none

theorem encode_injective : Function.Injective encode := fun s t h => by
  have hdecoded := decode_encode s
  rw [h, decode_encode t] at hdecoded
  exact (Option.some.inj hdecoded).symm

theorem find_ofFields (name : String) (fields : List (String × Json)) :
    (ofFields fields).find? name = fields.lookup name := by
  unfold ofFields find?
  dsimp only
  induction fields with
  | nil => rfl
  | cons field fields ih =>
    obtain ⟨key, value⟩ := field
    rw [List.map_cons, List.lookup_cons, List.lookup_cons, ih]
    by_cases heq : name = key
    · rw [heq, beq_self_eq_true, beq_self_eq_true]
    · rw [beq_false_of_ne heq, beq_false_of_ne (encode_injective.ne heq)]

/-- The entries of a label for its start and its end. -/
structure Marks (l : Json) (first last : Position) : Prop where
  startLine : l.find? "start_line" = some (.ofNat first.line)
  startColumn : l.find? "start_column" = some (.ofNat first.column)
  endLine : l.find? "end_line" = some (.ofNat last.line)
  endColumn : l.find? "end_column" = some (.ofNat last.column)

end Json

theorem Label.toJson_marks (l : Label) (file source : String) :
    (l.toJson file source).Marks (l.ends source).1 (l.ends source).2 := by
  constructor <;> rw [toJson, Json.find_ofFields] <;> simp [List.lookup_cons]

/-! ## Diagnostics -/

/-- The diagnostic points at the place `s`. In JSON it has one label, from the line and column of the place
to those of the point at its end, which does not lie before it. Both are points of the text, so their lines
and columns are those that its line feeds give them. On one line, the diagnostic names the line and column
of the place. -/
structure Diagnostic.PointsAt (file source : String) (s : Span) (d : Diagnostic) : Prop where
  label : ∃ l last, (d.toJson file source).find? "labels" = some (.array [l]) ∧ l.Marks s.first last ∧
    last.offset = s.stop ∧ s.first.In source.toList ∧ last.In source.toList ∧
    s.first.lineColumnLE last = true
  oneLine : d.oneLine file = s!"{file}:{s.line}:{s.column} - {d.message}"

theorem Diagnostic.pointsAt {source : String} {d : Diagnostic} {l : Label} (hlabel : d.label = some l)
    (h : l.span.In source.toList) (file : String) : d.PointsAt file source l.span where
  label := by
    obtain ⟨last, hends, hplaced⟩ := l.ends_placed h
    refine ⟨l.toJson file source, last, ?_, ?_, hplaced⟩
    · rw [toJson, Json.find_ofFields, hlabel]
      simp [List.lookup_cons]
    · have hmarks := l.toJson_marks file source
      rwa [hends] at hmarks
  oneLine := by
    have hline := h.line_pos
    rw [oneLine, hlabel]
    simp [Option.filter, hline, Span.text, String.append_assoc, toString]

/-- There is one diagnostic for each place, and its label stands there. -/
theorem Failure.diagnostics_labeled {f : Failure} {spans : List Span} (h : f.places? = some spans) :
    List.Forall₂ (fun s d => ∃ l, d.label = some l ∧ l.span = s) spans f.diagnostics := by
  have hmap {α : Type} (place : α → Span) (report : α → Diagnostic)
      (hreport : ∀ e, ∃ l, (report e).label = some l ∧ l.span = place e) (es : List α) :
      List.Forall₂ (fun s d => ∃ l, d.label = some l ∧ l.span = s) (es.map place) (es.map report) :=
    List.forall₂_map_left_iff.mpr (List.forall₂_map_right_iff.mpr
      (List.forall₂_same.mpr fun e _ => hreport e))
  cases f with
  | lexical es =>
    cases h
    exact hmap _ .ofLexError (fun _ => ⟨_, rfl, rfl⟩) es
  | syntactic es =>
    cases h
    exact hmap _ .ofParseError (fun _ => ⟨_, rfl, rfl⟩) es
  | semantic es =>
    cases h
    exact hmap _ .ofSemanticError (fun _ => ⟨_, rfl, rfl⟩) es
  | build e =>
    cases e <;> cases h
    exact .cons ⟨_, rfl, rfl⟩ .nil
  | runtime fault => cases h

/-- If a text has no image because of errors with places, each diagnostic points at the place of its
error. -/
theorem Image.ofSource_diagnostics_point {source : String} {f : Failure} {spans : List Span}
    (h : Image.ofSource source = .error f) (hspans : f.places? = some spans) (file : String) :
    List.Forall₂ (fun s d => d.PointsAt file source s) spans f.diagnostics := by
  have hplaced := Image.ofSource_error_places h hspans
  have hlabeled := Failure.diagnostics_labeled hspans
  refine ((List.forall₂_and_left _ _).mpr ⟨hplaced, hlabeled⟩).imp ?_
  rintro s d ⟨hs, l, hl, rfl⟩
  exact Diagnostic.pointsAt hl hs file

/-- A program with an unknown type in its fourth line and a field of the wrong type in its third. -/
def misused : String := "class Main\n\x7b\n private x: number = true\n private y: Missing\n\x7d\n"

theorem misused_diagnostics_point : ∃ f spans, Image.ofSource misused = .error f ∧
    f.places? = some spans ∧ spans.map (·.text) = ["4:13", "3:22"] ∧
      List.Forall₂ (fun s d => d.PointsAt "main.enl" misused s) spans f.diagnostics := by
  have hspans : (match Image.ofSource misused with
      | .error f => f.places?
      | .ok _ => none) = some [⟨51, 58, 4, 13⟩, ⟨34, 38, 3, 22⟩] := by decide +kernel
  cases h : Image.ofSource misused with
  | error f =>
    rw [h] at hspans
    exact ⟨f, _, rfl, hspans, by decide, Image.ofSource_diagnostics_point h hspans "main.enl"⟩
  | ok image =>
    rw [h] at hspans
    cases hspans

end ClassLang
