import ClassLang.Build.Stages
import ClassLang.Proofs.Members

/-!
# Whole programs on the machine

A run of the image of a checked program does what the direct evaluation of the program does
(`main_realized`). From this one fact follow the end of every run (`run_cases`) and that evaluation and
run end alike or both go on for ever (`ending_of_evaluate`, `evaluate_of_ending`).
-/

namespace ClassLang

/-- The machine is at the last `return`: it halts next, and its result is null. -/
def Halting (a : Analysis) (image : Image) (v : Value) (s : EvalState) (m : Machine) : Prop :=
  v = .null ∧ HeapTyped a m ∧ ∃ h, m.step image = .halt v h s.console

section

variable {a : Analysis} {image : Image} (W : WellTyped a) (A : Assembled a image)

include W

/-- The constructor of the entry class takes no arguments. -/
theorem EmitsEntry.constructor {id : Nat} (E : EmitsEntry a.classes image id) :
    ∃ meth, a.classes.constructor? id = some meth ∧ meth.params = [] := by
  have hlt : id < a.classes.size := (List.findIdx?_eq_some_iff_findIdx_eq.mp E.found).1
  have hu : ¬ id < TypeId.first := by
    intro hlt'
    obtain ⟨r, hr⟩ := ClassTable.exists_record hlt
    have := CorrespondenceLemmas.builtin_isBuiltin hlt' ((W.builtin id hlt').symm.trans hr)
    simpa [ClassTable.isBuiltin, hr, this] using E.notBuiltin
  obtain ⟨i, d, p, r, rfl, _, hc⟩ := W.user_class hlt hu
  obtain ⟨meth, _, hm, _⟩ := hc.constructor
  have hctor : a.classes.constructor? (TypeId.first + i) = some meth := by
    rw [ClassTable.constructor?, hc.record, Option.bind_some, hm]
  exact ⟨meth, hctor, E.noParams meth hctor⟩

include A

/-- The machine that starts does what the evaluation of the program does. -/
theorem main_realized (n : Nat) (console : Console) :
    Realizes image (HeapTyped a) n (a.main n ⟨[], console, []⟩) (Machine.start image console)
      (Halting a image) := by
  obtain ⟨id, E⟩ := A.entry
  obtain ⟨meth, hctor, hparams⟩ := E.constructor W
  obtain ⟨i, hi, hentry⟩ := E.code
  obtain ⟨_, hmain⟩ := TypeId.ne_unit_of_construct E.construct
  have hinst := W.constructor_inheritable hctor
  obtain ⟨r, hr, hmeth⟩ := Option.bind_eq_some_iff.mp hctor
  obtain ⟨body, hres, hbody, hargs⟩ := resolve_method W A (W.inheritable_lt hinst) hinst.ne_unit hi
    (by simp) (ClassTable.lookupMethod_own hr hmeth)
  have hempty : HeapRel a.classes [] Heap.empty := ⟨rfl, fun i o ho => by simp at ho⟩
  have hstart : Machine.start image console =
      ⟨⟨#[.new (TypeId.index id), .invoke (TypeId.index id) i, .return], 0, [], #[]⟩, [], .empty,
        console⟩ := by
    simp [Machine.start, Frame.start, hentry, hmain]
  rw [Analysis.main, E.found, hstart]
  refine (instantiate_realized W A (invoke_realized W A n) hinst rfl hempty).bind ?_
  intro o s₁ m₁ hret
  obtain ⟨h₁, rfl, hrel₁⟩ := hret.machine
  have hcount : body.arguments = [o].length := by rw [hargs, hparams]; rfl
  have hstep : Machine.step image
      ⟨⟨#[.new (TypeId.index id), .invoke (TypeId.index id) i, .return], 1, [o], #[]⟩, [], h₁,
        s₁.console⟩ =
      Machine.call image
        ⟨⟨#[.new (TypeId.index id), .invoke (TypeId.index id) i, .return], 2, [], #[]⟩, [], h₁,
          s₁.console⟩ body [o] := by
    simpa using step_invoke rfl hres hcount
  refine (invoke_realized W A n hbody (.constructor hctor) hrel₁ hret.typed (hparams ▸ .nil)
    ⟨_, hrel₁⟩ hstep).mono ?_
  rintro v s₂ m₂ ⟨hret₂, _⟩
  obtain ⟨h₂, rfl, hrel₂⟩ := hret₂.machine
  exact ⟨hrel₂.unit_null W hret₂.typed, ⟨_, hrel₂⟩, h₂, step_return_last rfl⟩

/-! ## Runs -/

/-- The run is not at its end within the bound, and its heap is that of well-typed objects. -/
def Running (a : Analysis) (image : Image) (bound : Nat) (console : Console) : Prop :=
  ∃ m, image.run bound console = .unfinished m ∧ HeapTyped a m

/-- An end that a checked program may come to: null as its result, or a fault that is about null, a cast
or the input. -/
def Ending.Regular : Ending → Prop
  | .value v _ => v = .null
  | .fault cause _ => cause.Ordinary
  | .stuck => False

/-- An evaluation that ends tells where every run ends, and how. -/
theorem runs_of_evaluate {n : Nat} {console : Console} {e : Ending}
    (he : a.evaluate n console = some e) :
    e.Regular ∧ ∃ k, ∀ bound, (bound ≤ k ∧ Running a image bound console) ∨
      (k < bound ∧ (image.run bound console).ending = some e) := by
  have h := main_realized W A n console
  rw [Analysis.evaluate] at he
  generalize a.main n ⟨[], console, []⟩ = r at h he
  obtain ⟨x, s⟩ := r
  cases x with
  | ok v =>
    cases he
    obtain ⟨k, m, hk, hnull, hG, heap, hstep⟩ := h
    refine ⟨hnull, k, ?_⟩
    intro bound
    have hend (bound : Nat) : m.run image (bound + 1) = .halted v heap s.console := by
      rw [Machine.run, hstep]
    exact (hk.run_end hG hend bound).imp_right (.imp_right (congrArg RunResult.ending))
  | error stop =>
    cases stop with
    | fault cause =>
      cases he
      obtain ⟨hc, k, m, hk, hG, hstep⟩ := h
      refine ⟨hc, k, ?_⟩
      intro bound
      have hend (bound : Nat) : m.run image (bound + 1) = .faulted cause s.console := by
        rw [Machine.run, hstep]
      exact (hk.run_end hG hend bound).imp_right (.imp_right (congrArg RunResult.ending))
    | stuck => exact h.elim
    | unfinished => cases he

/-- An evaluation that does not end within a bound tells that no run ends within it. -/
theorem running_of_evaluate {n : Nat} {console : Console} (he : a.evaluate n console = none) :
    ∀ bound < n, Running a image bound console := by
  have h := main_realized W A n console
  rw [Analysis.evaluate] at he
  generalize a.main n ⟨[], console, []⟩ = r at h he
  obtain ⟨x, s⟩ := r
  cases x with
  | ok v => cases he
  | error stop =>
    cases stop with
    | fault cause => cases he
    | stuck => cases he
    | unfinished =>
      obtain ⟨k, m, hle, hk⟩ := h
      intro bound hlt
      obtain ⟨m₁, hrun, hG, _⟩ := hk.run_of_lt (Nat.lt_of_lt_of_le hlt hle)
      exact ⟨m₁, hrun, hG⟩

/-- A run is at work on well-typed objects, or it has come to a regular end. -/
theorem run_cases (bound : Nat) (console : Console) :
    Running a image bound console ∨
      ∃ e, (image.run bound console).ending = some e ∧ e.Regular := by
  cases he : a.evaluate (bound + 1) console with
  | none => exact .inl (running_of_evaluate W A he bound (Nat.lt_succ_self _))
  | some e =>
    obtain ⟨hregular, k, hruns⟩ := runs_of_evaluate W A he
    rcases hruns bound with ⟨_, hrun⟩ | ⟨_, hend⟩
    · exact .inl hrun
    · exact .inr ⟨e, hend, hregular⟩

/-- An evaluation that ends shows the end of a run. -/
theorem ending_of_evaluate {n : Nat} {console : Console} {e : Ending}
    (he : a.evaluate n console = some e) : ∃ k, (image.run k console).ending = some e := by
  obtain ⟨_, k, hruns⟩ := runs_of_evaluate W A he
  rcases hruns (k + 1) with ⟨hle, _⟩ | ⟨_, hend⟩
  · exact absurd hle (Nat.not_succ_le_self k)
  · exact ⟨k + 1, hend⟩

/-- A run that ends within a bound shows the end of every evaluation with that bound or a larger one. -/
theorem evaluate_of_ending {n k : Nat} {console : Console} {e : Ending}
    (he : (image.run k console).ending = some e) (hk : k < n) : a.evaluate n console = some e := by
  have hnot : ¬ Running a image k console := by
    rintro ⟨m, hrun, _⟩
    rw [hrun] at he
    cases he
  cases he' : a.evaluate n console with
  | none => exact absurd (running_of_evaluate W A he' k hk) hnot
  | some e' =>
    obtain ⟨_, _, hruns⟩ := runs_of_evaluate W A he'
    rcases hruns k with ⟨_, hrun⟩ | ⟨_, hend⟩
    · exact absurd hrun hnot
    · rw [← hend, he]

end

end ClassLang
