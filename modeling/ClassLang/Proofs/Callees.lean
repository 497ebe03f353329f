import ClassLang.Proofs.CallDiscipline

/-!
# The body that an instruction calls

`Machine.called?` is the body that the next instruction of a machine calls, with the arguments that it hands
to it, whatever the calling instruction is. What such a step does is the call and nothing else
(`Machine.step_of_called`), and a step that calls nothing leaves the console alone
(`Machine.console_of_not_called`).
-/

namespace ClassLang

namespace Machine

/-- The body and the arguments of the target of a call, if there is one. -/
def bodyOf? : Except Fault Target → Option (Body × List Value)
  | .ok (body, args, _) => some (body, args)
  | .error _ => none

/-- The body that an instruction calls, with the arguments that it hands to it. -/
def callee? (image : Image) (m : Machine) : Instr → Option (Body × List Value)
  | .invoke c member => bodyOf? (staticTarget image m.frame c member)
  | .callVirtual c member => bodyOf? (virtualTarget image m.heap m.frame c member none)
  | .virtualOrAny c member => bodyOf? (virtualTarget image m.heap m.frame c member (some TypeId.any))
  | .new index => do
    let c ← image.construct? index
    let (_, body) ← image.resolve? index (← image.memberId? .initializer)
    return (body, [(m.heap.allocate index c.fieldCount).1])
  | _ => none

/-- The body that the next instruction calls, with the arguments that it hands to it. -/
def called? (image : Image) (m : Machine) : Option (Body × List Value) :=
  match m.frame.fetch with
  | .ok (i, frame) => { m with frame }.callee? image i
  | .error _ => none

variable {image : Image} {m m' : Machine} {body : Body} {args : List Value}

theorem bodyOf?_eq_some {target : Except Fault Target} :
    bodyOf? target = some (body, args) ↔ ∃ f, target = .ok (body, args, f) := by
  cases target with
  | ok target => simp [bodyOf?, Prod.ext_iff]
  | error e => simp [bodyOf?]

theorem bodyOf?_eq_none {target : Except Fault Target} : bodyOf? target = none ↔ ∃ e, target = .error e := by
  cases target <;> simp [bodyOf?]

theorem callTarget_of_bodyOf {target : Except Fault Target} (h : bodyOf? target = some (body, args)) :
    ∃ m₁ : Machine, m₁.console = m.console ∧ m.callTarget image target = m₁.call image body args := by
  obtain ⟨f, rfl⟩ := bodyOf?_eq_some.mp h
  exact ⟨{ m with frame := f }, rfl, rfl⟩

theorem execute_of_callee {i : Instr} (h : m.callee? image i = some (body, args)) :
    ∃ m₁ : Machine, m₁.console = m.console ∧ m.execute image i = m₁.call image body args := by
  cases i
  case invoke | callVirtual | virtualOrAny => exact callTarget_of_bodyOf h
  case new index =>
    simp only [callee?, Option.bind_eq_bind, Option.bind_eq_some_iff, Option.pure_def, Option.some.injEq,
      Prod.exists, Prod.mk.injEq] at h
    obtain ⟨c, hc, member, hmember, owner, body', hbody, rfl, rfl⟩ := h
    refine ⟨{ m with heap := (m.heap.allocate index c.fieldCount).2 }, rfl, ?_⟩
    simp only [execute, new, hc, hmember, resolve, hbody]
  all_goals cases h

/-- A step that calls a body is the call of that body, by a machine with the same console. -/
theorem step_of_called (h : m.called? image = some (body, args)) :
    ∃ m₁ : Machine, m₁.console = m.console ∧ m.step image = m₁.call image body args := by
  cases hfetch : m.frame.fetch with
  | ok fetched =>
    simp only [called?, hfetch] at h
    simp only [step, hfetch]
    exact execute_of_callee h
  | error e =>
    simp only [called?, hfetch] at h
    cases h

/-- The arguments of a body that takes one more than lie above the receiver start with the receiver. -/
theorem popMany_receiver {f : Frame} {receiver : Value} {n : Nat} (h : f.stack[n]? = some receiver) :
    f.popMany (n + 1) = .ok (receiver :: (f.stack.take n).reverse, { f with stack := f.stack.drop (n + 1) }) := by
  have hle : n + 1 ≤ f.depth := (List.getElem?_eq_some_iff.mp h).1
  rw [Frame.popMany, if_pos hle, List.take_add_one, h, List.reverse_append]
  rfl

/-- A static call calls what is found from its construct. -/
theorem invoke_called {c member owner n : Nat} {receiver : Value}
    (hi : m.frame.code[m.frame.ip]? = some (.invoke c member))
    (hbody : image.resolve? c member = some (owner, body)) (hargs : body.arguments = n + 1)
    (hreceiver : m.frame.stack[n]? = some receiver) :
    ∃ rest, m.called? image = some (body, receiver :: rest) := by
  have hpop := popMany_receiver (f := { m.frame with ip := m.frame.ip + 1 }) hreceiver
  refine ⟨(m.frame.stack.take n).reverse, ?_⟩
  simp only [called?, Frame.fetch, hi, callee?, staticTarget, resolve_ok.mpr hbody, hargs, hpop, bind,
    Except.bind, pure, Except.pure, bodyOf?]

/-- The target of a virtual call is found from the construct of the receiver, unless there is none or it takes
another number of arguments. -/
theorem virtualTarget_receiver {heap : Heap} {f : Frame} {c member owner n own : Nat} {declared : Body}
    {receiver : Value} (hdeclared : image.resolve? c member = some (owner, declared))
    (hargs : declared.arguments = n + 1) (hreceiver : f.stack[n]? = some receiver)
    (hown : heap.construct? receiver = some own) :
    (∃ owner' body rest f', image.resolve? own member = some (owner', body) ∧
      virtualTarget image heap f c member none = .ok (body, receiver :: rest, f')) ∨
    ∃ cause, virtualTarget image heap f c member none = .error cause ∧
      ((∃ owner name, cause = .missingBody owner name) ∨ ∃ e, cause = .code e) := by
  have hpeek : f.peekAt n = .ok receiver := by rw [Frame.peekAt, hreceiver]
  simp only [virtualTarget, resolve_ok.mpr hdeclared, hargs, Nat.add_sub_cancel, hpeek, hown, Option.some_or,
    bind, Except.bind]
  cases hfound : image.resolve? own member with
  | none =>
    simp only [resolve, hfound]
    exact .inr ⟨_, rfl, .inl ⟨_, _, rfl⟩⟩
  | some found =>
    obtain ⟨owner', body⟩ := found
    simp only [resolve, hfound, popMany_receiver hreceiver]
    split
    · exact .inr ⟨_, rfl, .inr ⟨_, rfl⟩⟩
    · exact .inl ⟨owner', body, _, _, rfl, rfl⟩

/-- A virtual call calls what is found from the construct of the receiver, unless there is none or it takes
another number of arguments. -/
theorem callVirtual_called {c member owner n own : Nat} {declared : Body} {receiver : Value}
    (hi : m.frame.code[m.frame.ip]? = some (.callVirtual c member))
    (hdeclared : image.resolve? c member = some (owner, declared)) (hargs : declared.arguments = n + 1)
    (hreceiver : m.frame.stack[n]? = some receiver) (hown : m.heap.construct? receiver = some own) :
    (∃ owner' body rest, image.resolve? own member = some (owner', body) ∧
      m.called? image = some (body, receiver :: rest)) ∨
    ∃ cause, m.step image = .fault cause m.console ∧
      ((∃ owner name, cause = .missingBody owner name) ∨ ∃ e, cause = .code e) := by
  rcases virtualTarget_receiver (f := { m.frame with ip := m.frame.ip + 1 }) hdeclared hargs hreceiver hown with
    ⟨owner', body, rest, f', hfound, htarget⟩ | ⟨cause, htarget, hcause⟩
  · refine .inl ⟨owner', body, rest, hfound, ?_⟩
    simp only [called?, Frame.fetch, hi, callee?, htarget, bodyOf?]
  · refine .inr ⟨cause, ?_, hcause⟩
    simp only [step, Frame.fetch, hi, execute, htarget, callTarget]

theorem withFrame_console {r : Except Fault Frame} (h : m.withFrame r = .next m') :
    m'.console = m.console := by
  cases r <;> cases h
  rfl

theorem execute_console {i : Instr} (hcallee : m.callee? image i = none) (h : m.execute image i = .next m') :
    m'.console = m.console := by
  have target {t : Except Fault Target} (ht : bodyOf? t = none) (h : m.callTarget image t = .next m') :
      m'.console = m.console := by
    obtain ⟨e, rfl⟩ := bodyOf?_eq_none.mp ht
    cases h
  cases i <;> simp only [execute] at h
  case invoke | callVirtual | virtualOrAny => exact target hcallee h
  case new index =>
    simp only [new] at h
    split at h
    · cases h
    · next c hc =>
      split at h
      · cases h
        rfl
      · next member hmember =>
        split at h
        · next hbody => simp [callee?, hc, hmember, resolve_ok.mp hbody] at hcallee
        · cases h
  case setField offset =>
    split at h <;> cases h
    rfl
  case «return» =>
    unfold leave at h
    split at h <;> cases h
    rfl
  all_goals exact withFrame_console h

/-- A step that calls nothing reads nothing and writes nothing. -/
theorem console_of_not_called (hcalled : m.called? image = none) (h : m.step image = .next m') :
    m'.console = m.console := by
  cases hfetch : m.frame.fetch with
  | ok fetched =>
    simp only [called?, hfetch] at hcalled
    simp only [step, hfetch] at h
    exact execute_console (m := { m with frame := fetched.2 }) hcalled h
  | error e =>
    simp only [step, hfetch] at h
    cases h

end Machine

end ClassLang
