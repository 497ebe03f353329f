import ClassLang.Proofs.Simulation
import ClassLang.Proofs.Stages

/-!
# Runs of checked programs

Whatever text has an image, no run of it stops for want of an operand, a body or well-formed code
(`Image.run_safe`). What remains are faults that a program brings about by itself: null in a place where
there must be something, a cast to a class that a value is not of, input that is no text.
-/

namespace ClassLang

/-- An image comes from a well-typed program, of which it has all the code. -/
theorem Image.ofSource_ok {source : String} {image : Image} (h : Image.ofSource source = .ok image) :
    ∃ a, Analysis.ofSource source = .ok a ∧ WellTyped a ∧ Assembled a image := by
  obtain ⟨_, a, _, ha, hcheck, hlower⟩ := Image.ofSource_stages h
  exact ⟨a, ha, Check.program_wellTyped hcheck, Lower.image_assembled hlower⟩

/-- No run of a checked program breaks the machine: the operands, bodies and code that a step needs are
there, a value of the wrong kind is null, and the result is null. -/
theorem Image.run_safe {source : String} {image : Image} (h : Image.ofSource source = .ok image)
    (bound : Nat) (console : Console) :
    match image.run bound console with
    | .unfinished _ => True
    | .halted v _ _ => v = .null
    | .faulted cause _ => cause ≠ .stackUnderflow ∧ (∀ owner name, cause ≠ .missingBody owner name) ∧
        (∀ f, cause ≠ .code f) ∧ ∀ f, cause = .kind f → f.found = .null := by
  obtain ⟨a, _, W, A⟩ := Image.ofSource_ok h
  rcases run_cases W A bound console with ⟨m, hrun, _⟩ | ⟨e, hend, hregular⟩
  · rw [hrun]
    trivial
  · cases hrun : image.run bound console with
    | unfinished m => trivial
    | halted v heap c =>
      rw [hrun] at hend
      cases hend
      exact hregular
    | faulted cause c =>
      rw [hrun] at hend
      cases hend
      have hc : cause.Ordinary := hregular
      refine ⟨?_, fun owner name => ?_, fun f => ?_, fun f => ?_⟩
      all_goals
        rintro rfl
        exact hc

/-- A program that negates a number which nothing has initialized. -/
def uninitialized : String :=
  "class Main\n\x7b\n public n: number\n public new()\n \x7b\n this.n = -this.n\n \x7d\n\x7d\n"

/-- The null in the field is the operand at fault. -/
theorem uninitialized_faults : ∃ image, Image.ofSource uninitialized = .ok image ∧
    ∃ console, image.run 100 (.ofText "") = .faulted (.kind (.unexpected .number .null)) console := by
  have hfault : (Image.ofSource uninitialized).toOption.any (fun image =>
      match image.run 100 (.ofText "") with
      | .faulted (.kind (.unexpected .number .null)) _ => true
      | _ => false) = true := by decide +kernel
  cases h : Image.ofSource uninitialized with
  | error e =>
    rw [h] at hfault
    cases hfault
  | ok image =>
    rw [h] at hfault
    simp only [Except.toOption, Option.any_some] at hfault
    split at hfault
    · next console hrun => exact ⟨image, rfl, console, hrun⟩
    · cases hfault

theorem uninitialized_run_safe : ∃ image, Image.ofSource uninitialized = .ok image ∧
    match image.run 100 (.ofText "") with
    | .unfinished _ => True
    | .halted v _ _ => v = .null
    | .faulted cause _ => cause ≠ .stackUnderflow ∧ (∀ owner name, cause ≠ .missingBody owner name) ∧
        (∀ f, cause ≠ .code f) ∧ ∀ f, cause = .kind f → f.found = .null := by
  obtain ⟨image, himage, _⟩ := uninitialized_faults
  exact ⟨image, himage, Image.run_safe himage 100 _⟩

end ClassLang
