import ClassLang.Build.Stages
import ClassLang.Proofs.Success

/-!
# The stages of a build

A stage that follows another fails when either does, and an image has a program and its analysis behind
it (`Image.ofSource_stages`).
-/

namespace ClassLang

section

variable {ε ε' α β : Type} {e : ε}

/-- A sequence fails in its first step or in the rest. -/
theorem bind_eq_error {x : Except ε α} {k : α → Except ε β} :
    (x >>= k) = .error e ↔ x = .error e ∨ ∃ a, x = .ok a ∧ k a = .error e := by
  cases x with
  | error e' => simp [bind, Except.bind]
  | ok a => simp [bind, Except.bind]

@[simp] theorem mapError_eq_ok {x : Except ε α} {g : ε → ε'} {a : α} :
    x.mapError g = .ok a ↔ x = .ok a := by
  constructor
  · intro h
    cases x <;> cases h
    rfl
  · rintro rfl
    rfl

@[simp] theorem mapError_eq_error {x : Except ε α} {g : ε → ε'} {e : ε'} :
    x.mapError g = .error e ↔ ∃ e', x = .error e' ∧ g e' = e := by
  constructor
  · intro h
    cases x <;> cases h
    exact ⟨_, rfl, rfl⟩
  · rintro ⟨e', rfl, rfl⟩
    rfl

end

/-- The tokens behind the ones that matter. -/
theorem significantTokens_eq_ok {source : String} {ts : List (Located Token)} :
    significantTokens source = .ok ts ↔ ∃ us, tokenize source = .ok us ∧ significantBreaks us = ts := by
  rw [significantTokens, mapError_eq_ok]
  cases tokenize source <;> simp [Except.map]

/-- The stages behind an analysis. -/
theorem Analysis.ofSource_stages {source : String} {a : Analysis}
    (h : Analysis.ofSource source = .ok a) :
    ∃ p, Program.ofSource source = .ok p ∧ Check.program p = .ok a := by
  simpa only [Analysis.ofSource, bind_eq_ok, mapError_eq_ok] using h

/-- The stages behind an image. -/
theorem Image.ofSource_stages {source : String} {image : Image}
    (h : Image.ofSource source = .ok image) :
    ∃ p a, Program.ofSource source = .ok p ∧ Analysis.ofSource source = .ok a ∧
      Check.program p = .ok a ∧ Lower.image a = .ok image := by
  simp only [Image.ofSource, bind_eq_ok, mapError_eq_ok] at h
  obtain ⟨a, ha, himage⟩ := h
  obtain ⟨p, hp, hcheck⟩ := Analysis.ofSource_stages ha
  exact ⟨p, a, hp, ha, hcheck, himage⟩

end ClassLang
