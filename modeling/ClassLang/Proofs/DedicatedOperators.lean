import ClassLang.Proofs.Mirror

/-!
# Operators with instructions of their own

The code of an operator on two numbers or two truth values is an instruction of its own, and no method is
called (`Lower.isDedicated`). The machine implements such an operator twice. The instruction pops its
operands, the right one first; the native behind the method gets them as arguments, the left one first, and
checks the right one only if it is needed. Equality is a method of the root alone, and a call on a number or
a truth value finds it there.

On operands of the right kind, which may be any numbers at all, the two implementations do the same
(`binary_value`, `unary_value`). A step of the instruction and a step of the call therefore lead to the same
state, in the image of every program (`Lower.dedicated_eq_call`).
-/

namespace ClassLang

/-! ## The two implementations -/

/-- The native that implements an operator on numbers and truth values. -/
def BinaryOp.native : BinaryOp → Native
  | .add => .numberAdd
  | .subtract => .numberSubtract
  | .multiply => .numberMultiply
  | .divide => .numberDivide
  | .modulo => .numberModulo
  | .less => .numberLess
  | .greater => .numberGreater
  | .lessEqual => .numberLessEqual
  | .greaterEqual => .numberGreaterEqual
  | .equal => .anyEqual
  | .notEqual => .anyNotEqual
  | .and => .booleanAnd
  | .or => .booleanOr

/-- The native that implements an operator on a number or a truth value. -/
def UnaryOp.native : UnaryOp → Native
  | .negate => .numberNegate
  | .not => .booleanNot

/-- The native behind the method of an operator, that of strings apart. -/
def MemberKey.native? : MemberKey → Option Native
  | .binary op => some op.native
  | .unary op => some op.native
  | _ => none

/-- A value of the kind of a class: a number, whichever it is, or a truth value. -/
inductive Value.OfKind : Value → TypeId → Prop
  | number (x : Float) : OfKind (.number x) TypeId.number
  | boolean (b : Bool) : OfKind (.boolean b) TypeId.boolean

namespace DedicatedLemmas

variable {id : TypeId} {x y : Value}

/-- An instruction and a native make the same value of two operands. -/
theorem binary_value {op : BinaryOp} (hd : Lower.isDedicated op (.plain id) (.plain id) = true)
    (hx : x.OfKind id) (hy : y.OfKind id) :
    ∃ v, (∀ code ip stk L, Frame.binary ⟨code, ip, y :: x :: stk, L⟩ op = .ok ⟨code, ip, v :: stk, L⟩) ∧
      ∀ text console, op.native.apply text console [x, y] = (.ok v, console) := by
  cases hx with
  | number x =>
    cases hy with | number y => ?_
    cases op with
    | and | or => cases hd
    | _ => exact ⟨_, fun _ _ _ _ => rfl, fun _ _ => rfl⟩
  | boolean p =>
    cases hy with | boolean q => ?_
    cases op with
    | equal | notEqual => exact ⟨_, fun _ _ _ _ => rfl, fun _ _ => rfl⟩
    | and | or =>
      -- Which operands the native checks depends on the left one.
      cases p <;> exact ⟨_, fun _ _ _ _ => rfl, fun _ _ => rfl⟩
    | _ => cases hd

theorem unary_value {op : UnaryOp} (hd : Lower.isDedicatedUnary op (.plain id) = true)
    (hx : x.OfKind id) :
    ∃ v, (∀ code ip stk L, Frame.unary ⟨code, ip, x :: stk, L⟩ op = .ok ⟨code, ip, v :: stk, L⟩) ∧
      ∀ text console, op.native.apply text console [x] = (.ok v, console) := by
  cases hx with
  | number x =>
    cases op with
    | negate => exact ⟨_, fun _ _ _ _ => rfl, fun _ _ => rfl⟩
    | not => cases hd
  | boolean b =>
    cases op with
    | negate => cases hd
    | not => exact ⟨_, fun _ _ _ _ => rfl, fun _ _ => rfl⟩

/-! ## The bodies of the methods -/

/-- Of the methods of the built-in classes, those of strings apart, the ones of an operator have its
native. -/
theorem builtin_native {owner : Nat} {b : BuiltinClass} {m : BuiltinMethod} {native : Native}
    (hb : Builtin.classes[owner]? = some b) (hne : owner ≠ TypeId.string) (hm : m ∈ b.methods)
    (hkey : m.key.native? = some native) : m.native = native := by
  have hall : ∀ i < 5, i ≠ TypeId.string → ∀ b ∈ Builtin.classes[i]?, ∀ m ∈ b.methods,
      ∀ native ∈ m.key.native?, m.native = native := by
    decide
  exact hall owner (List.getElem?_eq_some_iff.mp hb).1 hne b hb m hm native hkey

section

variable {a : Analysis} {image : Image} (W : WellTyped a) (A : Assembled a image) {key : MemberKey}

include W

/-- A built-in class finds the methods that it has itself and those of the root. -/
theorem builtin_finds {i : Nat} {r : ClassRecord} (hid : id < TypeId.first) (hne : id ≠ TypeId.unit)
    (hi : i = id ∨ i = TypeId.any) (hr : r ∈ ClassTable.standard.record? i)
    (hm : (r.method? key).isSome = true) :
    ∃ owner m, (owner = id ∨ owner = TypeId.any) ∧ a.classes.lookupMethod? id key = some (owner, m) := by
  have hlt : id < a.classes.size := Nat.lt_of_lt_of_le hid W.first_le
  have hanc : i ∈ a.classes.ancestors id := by
    rcases hi with rfl | rfl
    · exact ClassTable.isSubclass_iff.mp (ClassTable.isSubclass_refl hlt)
    · exact ClassTable.isSubclass_iff.mp (W.subclass_any hlt hne)
  have hi' : i < TypeId.first := by
    rcases hi with rfl | rfl
    · exact hid
    · decide
  have hfound : (a.classes.lookupMethod? id key).isSome = true := by
    rw [ClassTable.lookupMethod?, List.findSome?_isSome_iff]
    exact ⟨i, hanc, by simpa [(W.builtin i hi').trans hr] using hm⟩
  obtain ⟨⟨owner, m⟩, hl⟩ := Option.isSome_iff_exists.mp hfound
  obtain ⟨howner, _⟩ := ClassTable.lookupMethod_some hl
  exact ⟨owner, m, W.builtin_subclass hid (ClassTable.isSubclass_iff.mpr howner), hl⟩

include A

/-- The image finds the native of an operator where numbers or truth values have a method for it, be it their
own or that of the root. -/
theorem operator_resolve {i : Nat} {r : ClassRecord} {native : Native}
    (hid : id = TypeId.number ∨ id = TypeId.boolean) (hi : i = id ∨ i = TypeId.any)
    (hr : r ∈ ClassTable.standard.record? i) (hm : (r.method? key).isSome = true)
    (hkey : key.native? = some native) :
    ∃ member owner, image.memberId? key = some member ∧
      image.resolve? (TypeId.index id) member = some (owner, .ofNative native) := by
  have hinit : key ≠ .initializer := by
    rintro rfl
    cases hkey
  have hplace : id < TypeId.first ∧ id ≠ TypeId.unit ∧ id ≠ TypeId.string := by
    rcases hid with rfl | rfl <;> decide
  obtain ⟨owner, meth, howner, hl⟩ := builtin_finds W hplace.1 hplace.2.1 hi hr hm
  have hbuiltin : owner < TypeId.first ∧ owner ≠ TypeId.unit ∧ owner ≠ TypeId.string := by
    rcases howner with rfl | rfl
    · exact hplace
    · decide
  obtain ⟨_, r', hr', hmeth⟩ := ClassTable.lookupMethod_some hl
  obtain ⟨member, hmember⟩ := member_of_method W A hbuiltin.2.1 hr' hinit hmeth
  obtain ⟨body, hbody, hof, _⟩ :=
    resolve_method W A (Nat.lt_of_lt_of_le hplace.1 W.first_le) hplace.2.1 hmember hinit hl
  cases hof with
  | builtin hb hbm hk heq =>
    subst heq hk
    rw [builtin_native hb hbuiltin.2.2 hbm hkey] at hbody
    exact ⟨member, _, memberId_of_member A hmember, hbody⟩
  | user h => exact absurd (h ▸ hbuiltin.1) (by simp)

theorem binary_resolve {op : BinaryOp} {τ υ : Ty} (hd : Lower.isDedicated op τ υ = true) :
    ∃ id member owner, (id = TypeId.number ∨ id = TypeId.boolean) ∧ τ = .plain id ∧ υ = .plain id ∧
      image.memberId? (.binary op) = some member ∧
      image.resolve? (TypeId.index id) member = some (owner, .ofNative op.native) := by
  have hdeclared : ∀ id ∈ [TypeId.number, TypeId.boolean],
      Lower.isDedicated op (.plain id) (.plain id) = true →
      ∃ i ∈ [id, TypeId.any], ∃ r ∈ ClassTable.standard.record? i,
        (r.method? (.binary op)).isSome = true := by
    cases op <;> decide +kernel
  obtain ⟨id, hid, rfl, rfl⟩ : ∃ id ∈ [TypeId.number, TypeId.boolean], τ = .plain id ∧ υ = .plain id := by
    rcases CallsLemmas.dedicated_cases hd with ⟨rfl, rfl, _⟩ | ⟨rfl, rfl, _⟩
    · exact ⟨TypeId.number, by simp, rfl, rfl⟩
    · exact ⟨TypeId.boolean, by simp, rfl, rfl⟩
  obtain ⟨i, hi, r, hr, hm⟩ := hdeclared id hid hd
  simp only [List.mem_cons, List.not_mem_nil, or_false] at hid hi
  obtain ⟨member, owner, hmember, hbody⟩ := operator_resolve W A hid hi hr hm rfl
  exact ⟨id, member, owner, hid, rfl, rfl, hmember, hbody⟩

theorem unary_resolve {op : UnaryOp} {τ : Ty} (hd : Lower.isDedicatedUnary op τ = true) :
    ∃ id member owner, (id = TypeId.number ∨ id = TypeId.boolean) ∧ τ = .plain id ∧
      image.memberId? (.unary op) = some member ∧
      image.resolve? (TypeId.index id) member = some (owner, .ofNative op.native) := by
  have hdeclared : ∀ id ∈ [TypeId.number, TypeId.boolean],
      Lower.isDedicatedUnary op (.plain id) = true →
      ∃ i ∈ [id, TypeId.any], ∃ r ∈ ClassTable.standard.record? i,
        (r.method? (.unary op)).isSome = true := by
    cases op <;> decide +kernel
  obtain ⟨id, hid, rfl⟩ : ∃ id ∈ [TypeId.number, TypeId.boolean], τ = .plain id := by
    cases op with
    | negate =>
      obtain rfl : τ = .number := by simpa [Lower.isDedicatedUnary] using hd
      exact ⟨TypeId.number, by simp, rfl⟩
    | not =>
      obtain rfl : τ = .boolean := by simpa [Lower.isDedicatedUnary] using hd
      exact ⟨TypeId.boolean, by simp, rfl⟩
  obtain ⟨i, hi, r, hr, hm⟩ := hdeclared id hid hd
  simp only [List.mem_cons, List.not_mem_nil, or_false] at hid hi
  obtain ⟨member, owner, hmember, hbody⟩ := operator_resolve W A hid hi hr hm rfl
  exact ⟨id, member, owner, hid, rfl, hmember, hbody⟩

end

end DedicatedLemmas

/-! ## Steps -/

/-- The machine with other code for the frame at work. -/
def Machine.inCode (m : Machine) (code : Array Instr) : Machine := { m with frame := { m.frame with code } }

/-- Where the operands are on top of the stack, whatever is below them, a step of the one instruction and a
step of the other lead to the same state. It has one value in place of the operands, and apart from the code
that the instruction stands in, nothing else has changed. -/
def Instr.SameStep (image : Image) (i i' : Instr) (operands : List Value) : Prop :=
  ∀ (m : Machine) (rest : List Value) (code code' : Array Instr), m.frame.stack = operands ++ rest →
    code[m.frame.ip]? = some i → code'[m.frame.ip]? = some i' →
    ∃ v m', m' = { m with frame := { m.frame with ip := m.frame.ip + 1, stack := v :: rest } } ∧
      (m.inCode code).step image = .next (m'.inCode code) ∧
      (m.inCode code').step image = .next (m'.inCode code')

namespace DedicatedLemmas

variable {image : Image} {id : TypeId} {x y : Value} {member owner : Nat}

theorem construct_of_kind (hx : x.OfKind id) (h : Heap) : h.construct? x = some (TypeId.index id) := by
  cases hx <;> rfl

/-- An instruction and a call do the same if what the instruction pushes is the result of the native that
the call finds. -/
theorem sameStep_of_native {i : Instr} {native : Native} {v : Value} (args : List Value)
    (hresolve : image.resolve? (TypeId.index id) member = some (owner, .ofNative native))
    (harity : native.arity = args.length + 1) (hx : x.OfKind id)
    (hpushes : ∀ code ip stk L callers heap console,
      Machine.execute image ⟨⟨code, ip, (x :: args).reverse ++ stk, L⟩, callers, heap, console⟩ i =
        .next ⟨⟨code, ip, v :: stk, L⟩, callers, heap, console⟩)
    (hresult : ∀ text console, native.apply text console (x :: args) = (.ok v, console)) :
    Instr.SameStep image i (.callVirtual (TypeId.index id) member) (x :: args).reverse := by
  intro m rest code code' hstack hi hi'
  refine ⟨v, _, rfl, ?_, ?_⟩ <;> simp only [Machine.inCode, hstack]
  · rw [step_at hi]
    exact hpushes _ _ _ _ _ _ _
  · rw [step_callVirtual hi' hresolve harity (construct_of_kind hx m.heap) hresolve harity]
    simp only [Machine.call, Body.ofNative, Native.call, hresult]
    rfl

theorem binary_sameStep {op : BinaryOp} (hd : Lower.isDedicated op (.plain id) (.plain id) = true)
    (hresolve : image.resolve? (TypeId.index id) member = some (owner, .ofNative op.native))
    (hx : x.OfKind id) (hy : y.OfKind id) :
    Instr.SameStep image (.binary op) (.callVirtual (TypeId.index id) member) [y, x] := by
  obtain ⟨v, hframe, hresult⟩ := binary_value hd hx hy
  refine sameStep_of_native [y] hresolve (by cases op <;> rfl) hx (fun _ _ _ _ _ _ _ => ?_) hresult
  exact congrArg (Machine.withFrame _) (hframe _ _ _ _)

theorem unary_sameStep {op : UnaryOp} (hd : Lower.isDedicatedUnary op (.plain id) = true)
    (hresolve : image.resolve? (TypeId.index id) member = some (owner, .ofNative op.native))
    (hx : x.OfKind id) :
    Instr.SameStep image (.unary op) (.callVirtual (TypeId.index id) member) [x] := by
  obtain ⟨v, hframe, hresult⟩ := unary_value hd hx
  refine sameStep_of_native [] hresolve (by cases op <;> rfl) hx (fun _ _ _ _ _ _ _ => ?_) hresult
  exact congrArg (Machine.withFrame _) (hframe _ _ _ _)

end DedicatedLemmas

open DedicatedLemmas

/-- In the image of a program, an operator has a dedicated instruction for operands of two types only if both
are the type of numbers or both that of truth values. Its key then has a member number, and on operands of
that kind the instruction and the virtual call of the member on the construct of the type do the same. -/
theorem Lower.dedicated_eq_call {p : Program Span} {a : Analysis} {image : Image}
    (hcheck : Check.program p = .ok a) (hlower : Lower.image a = .ok image) :
    (∀ op τ υ, Lower.isDedicated op τ υ = true → ∃ id member,
      (id = TypeId.number ∨ id = TypeId.boolean) ∧ τ = .plain id ∧ υ = .plain id ∧
      image.memberId? (.binary op) = some member ∧ ∀ x y : Value, x.OfKind id → y.OfKind id →
        Instr.SameStep image (.binary op) (.callVirtual (TypeId.index id) member) [y, x]) ∧
    ∀ op τ, Lower.isDedicatedUnary op τ = true → ∃ id member,
      (id = TypeId.number ∨ id = TypeId.boolean) ∧ τ = .plain id ∧
      image.memberId? (.unary op) = some member ∧ ∀ x : Value, x.OfKind id →
        Instr.SameStep image (.unary op) (.callVirtual (TypeId.index id) member) [x] := by
  have W := Check.program_wellTyped hcheck
  have A := Lower.image_assembled hlower
  refine ⟨fun op τ υ hd => ?_, fun op τ hd => ?_⟩
  · obtain ⟨id, member, owner, hid, rfl, rfl, hmember, hresolve⟩ := binary_resolve W A hd
    exact ⟨id, member, hid, rfl, rfl, hmember, fun x y hx hy => binary_sameStep hd hresolve hx hy⟩
  · obtain ⟨id, member, owner, hid, rfl, hmember, hresolve⟩ := unary_resolve W A hd
    exact ⟨id, member, hid, rfl, hmember, fun x hx => unary_sameStep hd hresolve hx⟩

/-- The comparison of two truth values is a method that the class of truth values inherits. In the image of
a program, the instruction and the call make the same of them. -/
theorem uninitialized_equal_eq_call : ∃ p a image, Program.ofSource uninitialized = .ok p ∧
    Check.program p = .ok a ∧ Lower.image a = .ok image ∧
    ∃ member, image.memberId? (.binary .equal) = some member ∧
      Instr.SameStep image (.binary .equal) (.callVirtual TypeId.boolean member)
        [.boolean true, .boolean false] := by
  obtain ⟨image, himage, _⟩ := uninitialized_faults
  obtain ⟨p, a, hp, _, hcheck, hlower⟩ := Image.ofSource_stages himage
  obtain ⟨id, member, _, hid, _, hmember, hsame⟩ :=
    (Lower.dedicated_eq_call hcheck hlower).1 .equal .boolean .boolean rfl
  cases hid
  exact ⟨p, a, image, hp, hcheck, hlower, member, hmember, hsame _ _ (.boolean false) (.boolean true)⟩

end ClassLang
