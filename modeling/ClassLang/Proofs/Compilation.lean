import ClassLang.Proofs.Safety

/-!
# Compilation preserves meaning

The evaluation of a checked program and the runs of its image come to the same end, or neither comes to
an end (`Analysis.evaluate_run`).
-/

namespace ClassLang

/-- The run ends with the number of steps, and all longer runs end alike. -/
def Image.Ends (image : Image) (console : Console) (e : Ending) : Prop :=
  ∃ k, ∀ bound, (k ≤ bound → (image.run bound console).ending = some e) ∧
    ∀ e', (image.run bound console).ending = some e' → e' = e

/-- The evaluation ends within all bounds from some one on, and it ends alike within all of them. -/
def Analysis.Ends (a : Analysis) (console : Console) (e : Ending) : Prop :=
  ∃ k, ∀ bound, (k ≤ bound → a.evaluate bound console = some e) ∧
    ∀ e', a.evaluate bound console = some e' → e' = e

/-- No run of the image ends, however many steps it has. -/
def Image.Diverges (image : Image) (console : Console) : Prop :=
  ∀ bound, ∃ m, image.run bound console = .unfinished m

/-- The evaluation does not end within any bound. -/
def Analysis.Diverges (a : Analysis) (console : Console) : Prop :=
  ∀ bound, a.evaluate bound console = none

namespace CompilationLemmas

variable {a : Analysis} {image : Image} {console : Console}

/-- Where one run ends, all longer runs and all evaluations with a larger bound end alike. -/
theorem ends_of_run (W : WellTyped a) (A : Assembled a image) {k : Nat} {e : Ending}
    (he : (image.run k console).ending = some e) : a.Ends console e ∧ image.Ends console e := by
  have hev (bound : Nat) (hk : k < bound) : a.evaluate bound console = some e :=
    evaluate_of_ending W A he hk
  -- The evaluation with a large bound tells about all runs at once.
  obtain ⟨_, l, hruns⟩ := runs_of_evaluate W A (hev (k + 1) (Nat.lt_succ_self k))
  have hunique {bound : Nat} {e' : Ending} (he' : (image.run bound console).ending = some e') :
      e' = e := by
    rcases hruns bound with ⟨_, m, hm, _⟩ | ⟨_, hend⟩
    · rw [hm] at he'
      cases he'
    · exact Option.some.inj (he'.symm.trans hend)
  refine ⟨⟨k + 1, fun bound => ⟨fun hle => hev bound hle, fun e' he' => ?_⟩⟩,
    ⟨l + 1, fun bound => ⟨fun hle => ?_, fun e' he' => hunique he'⟩⟩⟩
  · obtain ⟨_, hend⟩ := ending_of_evaluate W A he'
    exact hunique hend
  · rcases hruns bound with ⟨hbound, _⟩ | ⟨_, hend⟩
    · exact absurd hbound (Nat.not_le.mpr hle)
    · exact hend

end CompilationLemmas

open CompilationLemmas

/-- The evaluation of a checked program and the runs of its image end alike, with the same output, the
same input left and the same result or fault, or all of them go on for ever. -/
theorem Analysis.evaluate_run {p : Program Span} {a : Analysis} {image : Image}
    (hp : Check.program p = .ok a) (himage : Lower.image a = .ok image) (console : Console) :
    (∃ e ≠ .stuck, a.Ends console e ∧ image.Ends console e) ∨
      (a.Diverges console ∧ image.Diverges console) := by
  have W := Check.program_wellTyped hp
  have A := Lower.image_assembled himage
  by_cases h : ∃ k, (image.run k console).ending.isSome
  · obtain ⟨k, hk⟩ := h
    obtain ⟨e, he⟩ := Option.isSome_iff_exists.mp hk
    refine .inl ⟨e, ?_, ends_of_run W A he⟩
    rintro rfl
    rcases run_cases W A k console with ⟨m, hm, _⟩ | ⟨e, hend, hregular⟩
    · rw [hm] at he
      cases he
    · rw [he] at hend
      cases hend
      exact hregular
  · refine .inr ⟨fun bound => ?_, fun bound => ?_⟩
    · cases he : a.evaluate bound console with
      | none => rfl
      | some e =>
        obtain ⟨k, hend⟩ := ending_of_evaluate W A he
        exact absurd ⟨k, by rw [hend]; rfl⟩ h
    · rcases run_cases W A bound console with ⟨m, hm, _⟩ | ⟨e, hend, _⟩
      · exact ⟨m, hm⟩
      · exact absurd ⟨bound, by rw [hend]; rfl⟩ h

/-- A program that goes through a loop once and writes what the loop is about. -/
def onceAround : String :=
  "class Main : IO\n\x7b\n public new()\n \x7b\n let going = true\n while going do\n \x7b\n" ++
    " this.out(going)\n going = false\n \x7d\n \x7d\n\x7d\n"

/-- The run writes one line and ends, and so does the evaluation. -/
theorem onceAround_evaluate_run : ∃ p a image, Program.ofSource onceAround = .ok p ∧
    Check.program p = .ok a ∧ Lower.image a = .ok image ∧
    (image.run 100 (.ofText "")).console.output = "true\n" ∧
    ((∃ e ≠ .stuck, a.Ends (.ofText "") e ∧ image.Ends (.ofText "") e) ∨
      (a.Diverges (.ofText "") ∧ image.Diverges (.ofText ""))) := by
  have hrun : (Image.ofSource onceAround).toOption.map
      (fun image => (image.run 100 (.ofText "")).console.output) = some "true\n" := by decide +kernel
  cases h : Image.ofSource onceAround with
  | error e =>
    rw [h] at hrun
    cases hrun
  | ok image =>
    rw [h] at hrun
    obtain ⟨p, a, hp, _, hcheck, hlower⟩ := Image.ofSource_stages h
    exact ⟨p, a, image, hp, hcheck, hlower, Option.some.inj hrun,
      Analysis.evaluate_run hcheck hlower _⟩

end ClassLang
