import ClassLang.Proofs.Safety

/-!
# Overriding

The check compares a method with the nearest one that it overrides. Since assignability is transitive,
this is enough for all of them: whatever a class offers, each class below offers in a form that may stand
in for it (`Check.program_overriding`). A call that is right for the class of the receiver's type is thus
right for the class that the receiver has when the program runs.
-/

namespace ClassLang

/-- A method of a class is there in every class below, however far: with as many parameters, each of which
takes what that of the class takes, with a result that may stand for that of the class, and for at least
the same users. -/
theorem Check.program_overriding {p : Program Span} {a : Analysis} (h : Check.program p = .ok a)
    {sub sup owner : TypeId} {key : MemberKey} {m : Method}
    (hsub : a.classes.isSubclass sub sup = true) (hkey : key.isInherited = true)
    (hm : a.classes.lookupMethod? sup key = some (owner, m)) :
    ∃ owner' m', a.classes.lookupMethod? sub key = some (owner', m') ∧
      m'.params.length = m.params.length ∧
      List.Forall₂ (fun τ τ' => a.classes.isAssignable τ τ' = true) m.params m'.params ∧
      a.classes.isAssignable m'.returns m.returns = true ∧
      m'.access.narrowness ≤ m.access.narrowness := by
  obtain ⟨owner', m', hm', hconf⟩ := (Check.program_wellTyped h).lookup_conforms hsub hkey hm
  exact ⟨owner', m', hm', hconf.params.length_eq.symm, hconf.params, hconf.returns, hconf.access⟩

/-- A method that is overridden twice: each time it takes more, gives less and is open to more users. -/
def widening : String :=
  "class A \x7b private f(x: C): A? = x \x7d\n" ++
  "class B : A \x7b protected override f(x: B): A = x \x7d\n" ++
  "class C : B \x7b public override f(x: any?): C = this \x7d\n" ++
  "class Main \x7b\x7d\n"

/-- The last form stands in for the first. -/
theorem widening_program_overriding : ∃ p a m owner' m', Program.ofSource widening = .ok p ∧
    Check.program p = .ok a ∧ a.classes.isSubclass 8 6 = true ∧
    a.classes.lookupMethod? 6 (.named "f") = some (6, m) ∧ m.params = [.plain 8] ∧
    a.classes.lookupMethod? 8 (.named "f") = some (owner', m') ∧
    m'.params.length = m.params.length ∧
    List.Forall₂ (fun τ τ' => a.classes.isAssignable τ τ' = true) m.params m'.params ∧
    a.classes.isAssignable m'.returns m.returns = true ∧
    m'.access.narrowness ≤ m.access.narrowness := by
  have hdata : (Analysis.ofSource widening).toOption.bind (fun a =>
      if a.classes.isSubclass 8 6 then
        (a.classes.lookupMethod? 6 (.named "f")).map fun found => (found.1, found.2.params)
      else none) = some (6, [.plain 8]) := by decide +kernel
  simp only [Option.bind_eq_some_iff, Option.ite_none_right_eq_some, Option.map_eq_some_iff,
    Prod.mk.injEq] at hdata
  obtain ⟨a, ha, hsub, ⟨owner, m⟩, hm, rfl, hparams⟩ := hdata
  obtain ⟨p, hp, hcheck⟩ := Analysis.ofSource_stages (toOption_eq_some.mp ha)
  obtain ⟨owner', m', hall⟩ := Check.program_overriding hcheck hsub (by decide) hm
  exact ⟨p, a, m, owner', m', hp, hcheck, hsub, hm, hparams, hall⟩

end ClassLang
