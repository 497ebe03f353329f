import ClassLang.Proofs.Calls

/-!
# Expressions on the machine

The code of a well-typed expression does what direct evaluation does (`expr_realized`): it leaves the
value on top of the operands below it, with a value of the expression's type, or it faults alike. There
is one lemma for each form of expression, from what is known about its parts; calls are assumed to be
realized.
-/

namespace ClassLang

/-- A member at work: the code and the number of slots of its chunk, the frames that wait for it, the
class that it belongs to and its receiver. -/
structure Activation where
  code : Array Instr
  room : Nat
  callers : List Frame
  owner : Nat
  this : Value

namespace Activation

/-- Slots and heap go with the state of an evaluation. -/
structure Holds (K : Activation) (t : ClassTable) (visible : List Binding) (s : EvalState)
    (L : Array Value) (h : Heap) : Prop where
  room : L.size = K.room
  locals : LocalsRel t s.objects visible s.locals K.this L
  heap : HeapRel t s.objects h
  receiver : K.this.HasType t s.objects (.plain K.owner)

/-- The machine is at instruction `ip` with operands `stk`. -/
def At (K : Activation) (t : ClassTable) (visible : List Binding) (ip : Nat) (stk : List Value)
    (s : EvalState) (m : Machine) : Prop :=
  ∃ L h, m = ⟨⟨K.code, ip, stk, L⟩, K.callers, h, s.console⟩ ∧ K.Holds t visible s L h

/-- A value of type `τ` is on top of the operands `stk`. -/
structure Pushed (K : Activation) (t : ClassTable) (visible : List Binding) (ip : Nat)
    (stk : List Value) (s : EvalState) (τ : Ty) (v : Value) (s' : EvalState) (m : Machine) :
    Prop where
  reached : K.At t visible ip (v :: stk) s' m
  keeps : Keeps s.objects s'.objects
  typed : v.HasType t s'.objects τ

/-- Values of the types `τs` are on top of the operands `stk`, the last one first. -/
structure PushedAll (K : Activation) (t : ClassTable) (visible : List Binding) (ip : Nat)
    (stk : List Value) (s : EvalState) (τs : List Ty) (vs : List Value) (s' : EvalState)
    (m : Machine) : Prop where
  reached : K.At t visible ip (vs.reverse ++ stk) s' m
  keeps : Keeps s.objects s'.objects
  typed : ValuesTyped t s'.objects vs τs

end Activation

/-- The code of an expression does what its evaluation does. -/
def ExprRealized (a : Analysis) (image : Image) (n : Nat)
    (call : Nat → MemberKey → List Value → Eval Value) (K : Activation) (visible : List Binding)
    (e : Expr Typing) (τ : Ty) (code : List Instr) : Prop :=
  ∀ ⦃ip : Nat⦄ ⦃stk : List Value⦄ ⦃s : EvalState⦄ ⦃m : Machine⦄, CodeAt K.code ip code →
    K.At a.classes visible ip stk s m →
    Realizes image (HeapTyped a) n (Evaluate.expr a.classes call K.owner K.this e s) m
      (K.Pushed a.classes visible (ip + code.length) stk s τ)

/-- The code of expressions one after the other does what their evaluation does. -/
def ExprsRealized (a : Analysis) (image : Image) (n : Nat)
    (call : Nat → MemberKey → List Value → Eval Value) (K : Activation) (visible : List Binding)
    (es : List (Expr Typing)) (τs : List Ty) (code : List Instr) : Prop :=
  ∀ ⦃ip : Nat⦄ ⦃stk : List Value⦄ ⦃s : EvalState⦄ ⦃m : Machine⦄, CodeAt K.code ip code →
    K.At a.classes visible ip stk s m →
    Realizes image (HeapTyped a) n (Evaluate.exprs a.classes call K.owner K.this es s) m
      (K.PushedAll a.classes visible (ip + code.length) stk s τs)

section

variable {a : Analysis} {image : Image} {n : Nat} {call : Nat → MemberKey → List Value → Eval Value}
  {K : Activation} {visible : List Binding} {ip : Nat} {stk : List Value} {s s₀ : EvalState}
  {L : Array Value} {h : Heap} {m : Machine} {v w : Value} {τ υ ρ : Ty}

namespace Activation

theorem At.heapTyped (hm : K.At a.classes visible ip stk s m) : HeapTyped a m := by
  obtain ⟨L, h, rfl, hK⟩ := hm
  exact ⟨s.objects, hK.heap⟩

theorem Holds.heapTyped {f : Frame} {callers : List Frame} {c : Console}
    (hK : K.Holds a.classes visible s L h) : HeapTyped a ⟨f, callers, h, c⟩ :=
  ⟨s.objects, hK.heap⟩

/-- A step that pushes the value of an evaluation. -/
theorem Holds.push (hK : K.Holds a.classes visible s L h) (hG : HeapTyped a m)
    (hstep : m.step image = .next ⟨⟨K.code, ip, v :: stk, L⟩, K.callers, h, s.console⟩)
    (hk : Keeps s₀.objects s.objects) (hv : v.HasType a.classes s.objects τ) :
    Realizes image (HeapTyped a) n ((pure v : Eval Value) s) m
      (K.Pushed a.classes visible ip stk s₀ τ) :=
  .step hG hstep (.pure ⟨⟨L, h, rfl, hK⟩, hk, hv⟩)

/-- A step that ends an evaluation. -/
theorem Holds.fault {α : Type} {P : α → EvalState → Machine → Prop} {f : Frame}
    {callers : List Frame} {cause : Fault} (hK : K.Holds a.classes visible s L h)
    (hc : cause.Ordinary)
    (hstep : Machine.step image ⟨f, callers, h, s.console⟩ = .fault cause s.console) :
    Realizes image (HeapTyped a) n ((Eval.fault cause : Eval α) s) ⟨f, callers, h, s.console⟩ P :=
  .fault hc hK.heapTyped hstep

theorem Pushed.trans {ip' : Nat} {stk' : List Value} {s' : EvalState} {m' : Machine}
    (hk : Keeps s₀.objects s.objects)
    (hp : K.Pushed a.classes visible ip' stk' s τ v s' m') :
    K.Pushed a.classes visible ip' stk' s₀ τ v s' m' :=
  ⟨hp.reached, hk.trans hp.keeps, hp.typed⟩

end Activation

/-! ## Names and literals -/

theorem number_realized (W : WellTyped a) {x : Float} {i : Instr} {ν : Typing}
    (hi : NumberCode image.pools x i) :
    ExprRealized a image n call K visible (.number x ν) .number [i] := by
  rintro ip stk s m hcode ⟨L, h, rfl, hK⟩
  have hv : (Value.number x).HasType a.classes s.objects .number := CallsLemmas.number_typed W x
  refine hK.push hK.heapTyped ?_ .refl hv
  cases hi with
  | zero => exact step_pushZero hcode.head
  | one => exact step_pushOne hcode.head
  | pooled hx =>
    have hc : image.constants.get? _ = some (.number x) := hx
    exact step_pushConst hcode.head (by simp [Image.constantValue?, hc])

theorem string_realized (W : WellTyped a) {c : String} {i : Nat} {ν : Typing}
    (hi : image.pools.constants.get? i = some (.string c)) :
    ExprRealized a image n call K visible (.string c ν) .string [.pushConst i] := by
  rintro ip stk s m hcode ⟨L, h, rfl, hK⟩
  have hc : image.constants.get? i = some (.string c) := hi
  exact hK.push hK.heapTyped (step_pushConst hcode.head (by simp [Image.constantValue?, hc])) .refl
    (CallsLemmas.string_typed W c)

theorem boolean_realized (W : WellTyped a) {b : Bool} {ν : Typing} :
    ExprRealized a image n call K visible (.boolean b ν) .boolean
      [if b then .pushTrue else .pushFalse] := by
  rintro ip stk s m hcode ⟨L, h, rfl, hK⟩
  exact hK.push hK.heapTyped (step_pushBoolean hcode.head) .refl (CallsLemmas.boolean_typed W b)

theorem null_realized {ν : Typing} :
    ExprRealized a image n call K visible (.null ν) τ [.pushNull] := by
  rintro ip stk s m hcode ⟨L, h, rfl, hK⟩
  exact hK.push hK.heapTyped (step_pushNull hcode.head) .refl .null

theorem name_realized {x : String} {i : Nat} {ν : Typing}
    (hτ : (visible.find? (·.name == x)).map (·.type) = some τ)
    (hi : (slotsOf (LocalsRel.names visible)).lookup x = some i) :
    ExprRealized a image n call K visible (.name x ν) τ [.load i] := by
  rintro ip stk s m hcode ⟨L, h, rfl, hK⟩
  obtain ⟨v, hv, hvt, hslot⟩ := hK.locals.lookup hτ hi
  have heval : Evaluate.expr a.classes call K.owner K.this (.name x ν) s = (pure v : Eval Value) s := by
    simp [Evaluate.expr, Evaluate.load, Eval.state, bind, hv]
  rw [heval]
  exact hK.push hK.heapTyped (step_load hcode.head hslot) .refl hvt

/-- `this` and a bare `base` are the receiver, which is of the class of the member and of its parent. -/
theorem this_realized {e : Expr Typing}
    (he : Evaluate.expr a.classes call K.owner K.this e = pure K.this)
    (hτ : ∀ objects, K.this.HasType a.classes objects (.plain K.owner) →
      K.this.HasType a.classes objects τ) :
    ExprRealized a image n call K visible e τ [.load 0] := by
  rintro ip stk s m hcode ⟨L, h, rfl, hK⟩
  rw [he]
  exact hK.push hK.heapTyped (step_load hcode.head hK.locals.this_slot) .refl (hτ _ hK.receiver)

/-! ## Fields and assignments -/

theorem length_snoc (code : List Instr) (i : Instr) (ip : Nat) :
    ip + (code ++ [i]).length = ip + code.length + 1 := by
  simp [Nat.add_assoc]

/-- The field of a member expression, as evaluation finds it. -/
theorem fieldOf_eq {t : ClassTable} {e : Expr Typing} {x : Ident} {id owner : Nat} {f : Field}
    (hnote : e.note.type = some (.plain id)) (hf : t.lookupField? id x.name = some (owner, f)) :
    Evaluate.fieldOf t e x = pure (owner, f) := by
  simp [Evaluate.fieldOf, hnote, Ty.class?, hf]

theorem member_realized (W : WellTyped a) {e : Expr Typing} {x : Ident} {ν : Typing} {id owner : Nat}
    {f : Field} {code : List Instr} (he : ExprRealized a image n call K visible e (.plain id) code)
    (hnote : e.note.type = some (.plain id))
    (hf : a.classes.lookupField? id x.name = some (owner, f)) :
    ExprRealized a image n call K visible (.member e x ν) f.type (code ++ [Instr.getField f.offset]) := by
  intro ip stk s m hcode hm
  rw [length_snoc]
  refine (he hcode.left hm).bind ?_
  intro v s₁ m₁ hp
  rw [fieldOf_eq hnote hf]
  obtain ⟨L, h, rfl, hK⟩ := hp.reached
  rcases hK.heap.field_read W hp.typed hf with rfl | ⟨w, hw, hwt, heval⟩
  · exact hK.fault trivial (step_getField_null hcode.right.head)
  · show Realizes image _ n (Evaluate.readField owner f v s₁) _ _
    rw [heval s₁ rfl]
    exact hK.push hK.heapTyped (step_getField hcode.right.head hw) hp.keeps hwt

theorem assignName_realized (W : WellTyped a) {x : String} {e : Expr Typing} {ν ν' : Typing} {i : Nat}
    {code : List Instr} (he : ExprRealized a image n call K visible e υ code)
    (hfit : a.classes.isAssignable υ τ = true)
    (hτ : (visible.find? (·.name == x)).map (·.type) = some τ)
    (hi : (slotsOf (LocalsRel.names visible)).lookup x = some i) :
    ExprRealized a image n call K visible (.assign (.name x ν) e ν') τ
      (code ++ [Instr.dup, .store i]) := by
  intro ip stk s m hcode hm
  have hlen : ip + (code ++ [Instr.dup, .store i]).length = ip + code.length + 1 + 1 := by
    simp [Nat.add_assoc]
  rw [hlen]
  refine (he hcode.left hm).bind ?_
  intro v s₁ m₁ hp
  have hv := hp.typed.assign W.rooted hfit
  obtain ⟨L, h, rfl, hK⟩ := hp.reached
  obtain ⟨hlt, hlocals⟩ := hK.locals.assign hτ hi hv
  refine .step hK.heapTyped (step_dup hcode.right.head) ?_
  have hK' : K.Holds a.classes visible { s₁ with locals := Evaluate.rebind x v s₁.locals }
      (L.set i v hlt) h := ⟨(Array.size_set hlt).trans hK.room, hlocals, hK.heap, hK.receiver⟩
  exact hK'.push hK.heapTyped (step_store hcode.right.tail.head hlt) hp.keeps hv

/-- Writing a field: null has none, and otherwise the value stays on top. -/
theorem write_realized (W : WellTyped a) {x : String} {id owner : Nat} {f : Field}
    (hf : a.classes.lookupField? id x = some (owner, f)) (hb : a.classes.isBuiltin owner = false)
    (hcode : K.code[ip]? = some (.setField f.offset))
    (hm : K.At a.classes visible ip (w :: v :: stk) s m)
    (hv : v.HasType a.classes s.objects (.plain id)) (hw : w.HasType a.classes s.objects f.type) :
    Realizes image (HeapTyped a) n (Evaluate.writeField owner f v w s) m fun _ s' m' =>
      K.At a.classes visible (ip + 1) (w :: stk) s' m' ∧ Keeps s.objects s'.objects := by
  obtain ⟨L, h, rfl, hK⟩ := hm
  rcases hK.heap.field_write W hv hf hb hw with rfl | ⟨i, h', rfl, hset, hrel⟩
  · exact hK.fault trivial (step_setField_null hcode)
  · have hk : Keeps s.objects (s.objects.modify i (·.set owner f.name w)) := .modify _ _ _ _
    refine .step hK.heapTyped (step_setField hcode hset) (.pure ⟨⟨L, h', rfl, ?_⟩, hk⟩)
    exact ⟨hK.room, hK.locals.keeps hk, hrel, hK.receiver.keeps hk⟩

theorem assignMember_realized (W : WellTyped a) {e e' : Expr Typing} {x : Ident} {ν ν' : Typing}
    {id owner : Nat} {f : Field} {code code' : List Instr}
    (he : ExprRealized a image n call K visible e (.plain id) code)
    (he' : ExprRealized a image n call K visible e' υ code')
    (hnote : e.note.type = some (.plain id))
    (hf : a.classes.lookupField? id x.name = some (owner, f))
    (hb : a.classes.isBuiltin owner = false) (hfit : a.classes.isAssignable υ f.type = true) :
    ExprRealized a image n call K visible (.assign (.member e x ν) e' ν') f.type
      (code ++ code' ++ [Instr.setField f.offset]) := by
  intro ip stk s m hcode hm
  rw [length_snoc, List.length_append, ← Nat.add_assoc]
  have hcode' := hcode.right
  rw [List.length_append, ← Nat.add_assoc] at hcode'
  refine (he hcode.left.left hm).bind ?_
  intro v s₁ m₁ hp
  refine (he' hcode.left.right hp.reached).bind ?_
  intro w s₂ m₂ hq
  rw [fieldOf_eq hnote hf]
  have hw := hq.typed.assign W.rooted hfit
  refine (write_realized W hf hb hcode'.head hq.reached (hp.typed.keeps hq.keeps) hw).bind ?_
  rintro _ s₃ m₃ ⟨hat, hk⟩
  exact .pure ⟨hat, (hp.keeps.trans hq.keeps).trans hk, hw.keeps hk⟩

/-! ## Operators with instructions of their own -/

/-- The step of an operator instruction. -/
theorem Activation.Holds.operate {P : Value → EvalState → Machine → Prop} {r : Except Fault Value}
    {f : Frame} (hK : K.Holds a.classes visible s L h)
    (hr : StepsTo image ⟨f, K.callers, h, s.console⟩
      (fun u => ⟨⟨K.code, ip, u :: stk, L⟩, K.callers, h, s.console⟩) a.classes s.objects τ r)
    (hP : ∀ u, u.HasType a.classes s.objects τ →
      P u s ⟨⟨K.code, ip, u :: stk, L⟩, K.callers, h, s.console⟩) :
    Realizes image (HeapTyped a) n (Eval.ofExcept r s) ⟨f, K.callers, h, s.console⟩ P := by
  match r, hr with
  | .ok u, ⟨hu, hstep⟩ => exact .step hK.heapTyped hstep (.pure (hP u hu))
  | .error e, ⟨hc, hstep⟩ => exact hK.fault hc hstep

theorem isPrimitive_eq (op : BinaryOp) (τ υ : Ty) :
    op.isPrimitive (some τ) (some υ) = Lower.isDedicated op τ υ := by
  cases op <;> simp [BinaryOp.isPrimitive, Lower.isDedicated]

theorem isPrimitive_unary_eq (op : UnaryOp) (τ : Ty) :
    op.isPrimitive (some τ) = Lower.isDedicatedUnary op τ := by
  cases op <;> simp [UnaryOp.isPrimitive, Lower.isDedicatedUnary]

theorem primitive_realized (W : WellTyped a) {op : BinaryOp} {l r : Expr Typing} {ν : Typing}
    {code code' : List Instr} (hl : ExprRealized a image n call K visible l τ code)
    (hr : ExprRealized a image n call K visible r υ code') (hτ : l.note.type = some τ)
    (hυ : r.note.type = some υ) (hd : Lower.isDedicated op τ υ = true) :
    ExprRealized a image n call K visible (.binary op l r ν) op.resultType
      (code ++ code' ++ [Instr.binary op]) := by
  intro ip stk s m hcode hm
  rw [length_snoc, List.length_append, ← Nat.add_assoc]
  refine (hl hcode.left.left hm).bind ?_
  intro v s₁ m₁ hp
  refine (hr hcode.left.right hp.reached).bind ?_
  intro w s₂ m₂ hq
  rw [hτ, hυ, isPrimitive_eq, if_pos hd]
  have hcode' := hcode.right
  rw [List.length_append, ← Nat.add_assoc] at hcode'
  obtain ⟨L, h, rfl, hK⟩ := hq.reached
  refine hK.operate (CallsLemmas.binary_outcome W hK.heap hd (hp.typed.keeps hq.keeps) hq.typed
    hcode'.head) ?_
  intro u hu
  exact ⟨⟨L, h, rfl, hK⟩, hp.keeps.trans hq.keeps, hu⟩

theorem unaryPrimitive_realized (W : WellTyped a) {op : UnaryOp} {e : Expr Typing} {ν : Typing}
    {code : List Instr} (he : ExprRealized a image n call K visible e τ code)
    (hτ : e.note.type = some τ) (hd : Lower.isDedicatedUnary op τ = true) :
    ExprRealized a image n call K visible (.unary op e ν) op.resultType
      (code ++ [Instr.unary op]) := by
  intro ip stk s m hcode hm
  rw [length_snoc]
  refine (he hcode.left hm).bind ?_
  intro v s₁ m₁ hp
  rw [hτ, isPrimitive_unary_eq, if_pos hd]
  obtain ⟨L, h, rfl, hK⟩ := hp.reached
  refine hK.operate (CallsLemmas.unary_outcome W hK.heap hd hp.typed hcode.right.head) ?_
  intro u hu
  exact ⟨⟨L, h, rfl, hK⟩, hp.keeps, hu⟩

/-! ## Null and types -/

theorem assert_realized {e : Expr Typing} {ν : Typing} {id : Nat} {code : List Instr}
    (he : ExprRealized a image n call K visible e (.option id) code) :
    ExprRealized a image n call K visible (.assert e ν) (.plain id) (code ++ [Instr.assert]) := by
  intro ip stk s m hcode hm
  rw [length_snoc]
  refine (he hcode.left hm).bind ?_
  intro v s₁ m₁ hp
  obtain ⟨L, h, rfl, hK⟩ := hp.reached
  by_cases hv : v.kind = .null
  · obtain rfl := Value.kind_null.mp hv
    exact hK.fault trivial (step_assert_null hcode.right.head)
  · rw [if_neg hv]
    exact hK.push hK.heapTyped (step_assert hcode.right.head hv) hp.keeps hp.typed

/-- The target of a test, as evaluation finds it. -/
theorem targetType_eq {t : ClassTable} {w : TypeName} (hw : t.resolveType w = .ok υ) :
    Evaluate.targetType t w = pure υ := by
  rw [Evaluate.targetType, hw]

theorem nullTest_realized (W : WellTyped a) {e : Expr Typing} {w : TypeName} {ν : Typing}
    {code : List Instr} (he : ExprRealized a image n call K visible e τ code)
    (hw : a.classes.resolveType w = .ok .null) :
    ExprRealized a image n call K visible (.instanceTest e w ν) .boolean (code ++ [Instr.isNull]) := by
  intro ip stk s m hcode hm
  rw [length_snoc]
  refine (he hcode.left hm).bind ?_
  intro v s₁ m₁ hp
  rw [targetType_eq hw]
  obtain ⟨L, h, rfl, hK⟩ := hp.reached
  have heq : decide (v.kind = .null) = v.isOf a.classes s₁.objects .null := by
    rcases hp.typed with rfl | ⟨id, c, hid, _⟩
    · rfl
    · have hv : v.kind ≠ .null := by
        intro hv
        rw [Value.kind_null.mp hv] at hid
        cases hid
      simp [Value.isOf, hid, hv, Ty.class?]
  refine hK.push hK.heapTyped ?_ hp.keeps (CallsLemmas.boolean_typed W _)
  rw [step_isNull hcode.right.head, heq]

theorem instanceTest_realized (W : WellTyped a) (A : Assembled a image) {e : Expr Typing}
    {w : TypeName} {ν : Typing} {c k : Nat} {code : List Instr}
    (he : ExprRealized a image n call K visible e τ code) (hw : a.classes.resolveType w = .ok υ)
    (hc : υ.class? = some c) (hk : TypeId.construct? c = some k) :
    ExprRealized a image n call K visible (.instanceTest e w ν) .boolean
      (code ++ [Instr.isInstance k υ.isNullable]) := by
  intro ip stk s m hcode hm
  rw [length_snoc]
  refine (he hcode.left hm).bind ?_
  intro v s₁ m₁ hp
  rw [targetType_eq hw]
  obtain ⟨L, h, rfl, hK⟩ := hp.reached
  refine hK.push hK.heapTyped ?_ hp.keeps (CallsLemmas.boolean_typed W _)
  rw [step_isInstance hcode.right.head, hK.heap.isInstance_eq W A hc hk]

theorem cast_realized (W : WellTyped a) (A : Assembled a image) {e : Expr Typing} {w : TypeName}
    {ν : Typing} {c k : Nat} {code : List Instr}
    (he : ExprRealized a image n call K visible e τ code) (hw : a.classes.resolveType w = .ok υ)
    (hc : υ.class? = some c) (hk : TypeId.construct? c = some k) (hlt : c < a.classes.size) :
    ExprRealized a image n call K visible (.cast e w ν) υ (code ++ [Instr.cast k υ.isNullable]) := by
  intro ip stk s m hcode hm
  rw [length_snoc]
  refine (he hcode.left hm).bind ?_
  intro v s₁ m₁ hp
  rw [targetType_eq hw]
  obtain ⟨L, h, rfl, hK⟩ := hp.reached
  have heq := hK.heap.isInstance_eq W A (v := v) hc hk
  show Realizes image _ n ((if v.isOf a.classes s₁.objects υ = true then pure v
    else Eval.fault _ : Eval Value) s₁) _ _
  by_cases hv : v.isOf a.classes s₁.objects υ = true
  · rw [if_pos hv]
    refine hK.push hK.heapTyped (step_cast hcode.right.head (heq.trans hv)) hp.keeps ?_
    cases hid : v.classId? s₁.objects with
    | none =>
      rcases hp.typed with rfl | ⟨id, _, hid', _⟩
      · exact .null
      · rw [hid] at hid'
        cases hid'
    | some id => exact .of_class hid hc (by simpa [Value.isOf, hid, hc] using hv)
  · rw [if_neg hv]
    refine hK.fault trivial ?_
    rw [step_cast_fault hcode.right.head (heq.trans (Bool.eq_false_iff.mpr hv)),
      hK.heap.text_eq W A, HeapRel.typeName_eq W A hc hk hlt]

/-! ## Arguments -/

theorem exprs_nil : ExprsRealized a image n call K visible [] [] [] := by
  intro ip stk s m hcode hm
  exact .pure ⟨hm, .refl, .nil⟩

theorem exprs_cons {e : Expr Typing} {es : List (Expr Typing)} {τs : List Ty}
    {code code' : List Instr} (he : ExprRealized a image n call K visible e τ code)
    (hes : ExprsRealized a image n call K visible es τs code') :
    ExprsRealized a image n call K visible (e :: es) (τ :: τs) (code ++ code') := by
  intro ip stk s m hcode hm
  rw [List.length_append, ← Nat.add_assoc]
  refine (he hcode.left hm).bind ?_
  intro v s₁ m₁ hp
  refine (hes hcode.right hp.reached).bind ?_
  intro vs s₂ m₂ hq
  refine .pure ⟨?_, hp.keeps.trans hq.keeps, .cons (hp.typed.keeps hq.keeps) hq.typed⟩
  simpa using hq.reached

/-! ## Calls -/

/-- The activation behind a call. -/
theorem Returned.pushed {s' : EvalState} {m' : Machine} (hK : K.Holds a.classes visible s L h)
    (hk : Keeps s₀.objects s.objects)
    (hret : Returned a.classes ⟨K.code, ip, stk, L⟩ K.callers s ρ v s' m') :
    K.Pushed a.classes visible ip stk s₀ ρ v s' m' := by
  obtain ⟨h', rfl, hrel⟩ := hret.machine
  refine ⟨⟨L, h', rfl, hK.room, ?_, hrel, hK.receiver.keeps hret.keeps⟩, hk.trans hret.keeps,
    hret.typed⟩
  exact hret.locals ▸ hK.locals.keeps hret.keeps

/-- A call of a member from an activation. -/
theorem CallsRealized.push (C : CallsRealized a image n call) {owner : Nat} {key : MemberKey}
    {body : Body} {σ : List Ty} {args : List Value} (hbody : BodyOf a image owner key body)
    (hsig : Signature a.classes owner key σ ρ) (hK : K.Holds a.classes visible s L h)
    (hk : Keeps s₀.objects s.objects) (hv : v.HasType a.classes s.objects (.plain owner))
    (hargs : ValuesTyped a.classes s.objects args σ) (hG : HeapTyped a m)
    (hstep : m.step image =
      Machine.call image ⟨⟨K.code, ip, stk, L⟩, K.callers, h, s.console⟩ body (v :: args)) :
    Realizes image (HeapTyped a) n (call owner key (v :: args) s) m fun w s' m' =>
      K.Pushed a.classes visible ip stk s₀ ρ w s' m' ∧ (key = .initializer → w = v) :=
  (C hbody hsig hK.heap hv hargs hG hstep).mono fun _ _ _ ⟨hret, hinit⟩ => ⟨hret.pushed hK hk, hinit⟩

/-- A call of the target that a class has. -/
theorem Target.push (W : WellTyped a) (C : CallsRealized a image n call) {sub i owner : Nat}
    {key : MemberKey} {σ τs : List Ty} {body : Body} {args : List Value}
    (T : Target a image sub i key σ ρ owner body) (hK : K.Holds a.classes visible s L h)
    (hk : Keeps s₀.objects s.objects) (hv : v.HasType a.classes s.objects (.plain owner))
    (hargs : ValuesTyped a.classes s.objects args τs) (hfit : a.classes.Fit τs σ)
    (hG : HeapTyped a m)
    (hstep : m.step image =
      Machine.call image ⟨⟨K.code, ip, stk, L⟩, K.callers, h, s.console⟩ body (v :: args)) :
    Realizes image (HeapTyped a) n (Evaluate.send a.classes call sub key (v :: args) s) m
      (K.Pushed a.classes visible ip stk s₀ ρ) := by
  obtain ⟨meth, hl⟩ := T.lookup
  obtain ⟨σ', ρ', hsig, hσ, hρ⟩ := T.signature
  have hsend : Evaluate.send a.classes call sub key (v :: args) = call owner key (v :: args) := by
    rw [Evaluate.send, hl]
  rw [hsend]
  refine (C.push T.bodyOf hsig hK hk hv ((hargs.fit W.rooted hfit).fit W.rooted hσ) hG hstep).mono ?_
  rintro w s' m' ⟨hp, _⟩
  exact ⟨hp.reached, hp.keeps, hp.typed.assign W.rooted hρ⟩

/-- A call through a receiver of a declared class. -/
theorem dispatch_realized (W : WellTyped a) (A : Assembled a image)
    (C : CallsRealized a image n call) {id owner i : Nat} {key : MemberKey} {meth : Method}
    {τs : List Ty} {args : List Value} (hne : id ≠ TypeId.unit) (hkey : key.isInherited)
    (hi : image.members[i]? = some key)
    (hl : a.classes.lookupMethod? id key = some (owner, meth))
    (hcode : K.code[ip]? = some (.callVirtual (TypeId.index id) i))
    (hm : K.At a.classes visible ip ((v :: args).reverse ++ stk) s m)
    (hk : Keeps s₀.objects s.objects) (hv : v.HasType a.classes s.objects (.plain id))
    (hargs : ValuesTyped a.classes s.objects args τs) (hfit : a.classes.Fit τs meth.params) :
    Realizes image (HeapTyped a) n (Evaluate.dispatch a.classes call v key args none s) m
      (K.Pushed a.classes visible (ip + 1) stk s₀ meth.returns) := by
  have hid := ClassTable.lookupMethod_lt hl
  obtain ⟨L, h, rfl, hK⟩ := hm
  obtain ⟨_, declared, D⟩ := W.target A hne (ClassTable.isSubclass_refl hid) hkey hi hl
  have hlen : declared.arguments = args.length + 1 := by
    rw [D.arguments, ← List.Forall₂.length_eq hfit, ← List.Forall₂.length_eq hargs]
  rcases hv with rfl | ⟨sub, c, hsub, hc, hinh⟩
  · -- The receiver is null.
    have hname : image.memberName i = key.text := by
      simp [Image.memberName, Image.member?, hi]
    show Realizes image _ n ((Eval.fault (.nullReceiver key.text) : Eval Value) s) _ _
    refine hK.fault trivial ?_
    rw [step_callVirtual_null hcode D.resolve hlen rfl, hname]
  · cases hc
    obtain ⟨_, hune⟩ := hK.heap.classId_lt W hsub
    obtain ⟨owner', body, T⟩ := W.target A hune hinh hkey hi hl
    have heval : Evaluate.dispatch a.classes call v key args none s =
        Evaluate.send a.classes call sub key (v :: args) s := by
      simp [Evaluate.dispatch, Eval.state, bind, hsub]
    rw [heval]
    refine T.push W C hK hk (.of_class hsub rfl T.inherits) hargs hfit hK.heapTyped ?_
    exact step_callVirtual hcode D.resolve hlen (by rw [hK.heap.construct_eq, hsub]; rfl) T.resolve
      (T.arguments.trans (D.arguments.symm.trans hlen))

/-- Equality on what may be null: the method of the receiver's class, or that of the root. -/
theorem dispatch_any_realized (W : WellTyped a) (A : Assembled a image)
    (C : CallsRealized a image n call) {c owner i : Nat} {key : MemberKey} {meth : Method}
    {τs : List Ty} {args : List Value} (hne : c ≠ TypeId.unit) (hlt : c < a.classes.size)
    (hkey : key.isInherited) (hi : image.members[i]? = some key)
    (hl : a.classes.lookupMethod? TypeId.any key = some (owner, meth))
    (hcode : K.code[ip]? = some (.virtualOrAny (TypeId.index c) i))
    (hm : K.At a.classes visible ip ((v :: args).reverse ++ stk) s m)
    (hk : Keeps s₀.objects s.objects) (hv : v.HasType a.classes s.objects τ)
    (hargs : ValuesTyped a.classes s.objects args τs) (hfit : a.classes.Fit τs meth.params) :
    Realizes image (HeapTyped a) n
      (Evaluate.dispatch a.classes call v key args (some TypeId.any) s) m
      (K.Pushed a.classes visible (ip + 1) stk s₀ meth.returns) := by
  obtain ⟨L, h, rfl, hK⟩ := hm
  have hany : TypeId.any < a.classes.size := Nat.lt_of_lt_of_le (by decide) W.first_le
  obtain ⟨_, declared, D⟩ := W.target A hne (W.subclass_any hlt hne) hkey hi hl
  have hlen : declared.arguments = args.length + 1 := by
    rw [D.arguments, ← List.Forall₂.length_eq hfit, ← List.Forall₂.length_eq hargs]
  -- The class that the call goes by: that of the receiver, or the root.
  obtain ⟨sub, hsub, hlt', hune, htyped⟩ : ∃ sub : Nat,
      (v.classId? s.objects).or (some TypeId.any) = some sub ∧ sub < a.classes.size ∧
      sub ≠ TypeId.unit ∧
      ∀ o, a.classes.isSubclass sub o = true → v.HasType a.classes s.objects (.plain o) := by
    rcases hv with rfl | ⟨sub, _, hsub, _, _⟩
    · exact ⟨TypeId.any, rfl, hany, by decide, fun _ _ => .null⟩
    · obtain ⟨hlt', hune⟩ := hK.heap.classId_lt W hsub
      exact ⟨sub, by simp [hsub], hlt', hune, fun _ ho => .of_class hsub rfl ho⟩
  obtain ⟨owner', body, T⟩ := W.target A hune (W.subclass_any hlt' hune) hkey hi hl
  have heval : Evaluate.dispatch a.classes call v key args (some TypeId.any) s =
      Evaluate.send a.classes call sub key (v :: args) s := by
    simp [Evaluate.dispatch, Eval.state, bind, hsub]
  rw [heval]
  refine T.push W C hK hk (htyped owner' T.inherits) hargs hfit hK.heapTyped ?_
  refine step_virtualOrAny hcode D.resolve hlen ?_ T.resolve
    (T.arguments.trans (D.arguments.symm.trans hlen))
  have hindex : some TypeId.any = (some TypeId.any).map TypeId.index := rfl
  rw [hK.heap.construct_eq, hindex, ← Option.map_or, hsub]
  rfl

theorem call_realized (W : WellTyped a) (A : Assembled a image) (C : CallsRealized a image n call)
    {e : Expr Typing} {x : Ident} {ν ν' : Typing} {es : List (Expr Typing)} {id owner i : Nat}
    {meth : Method} {τs : List Ty} {code code' : List Instr}
    (he : ExprRealized a image n call K visible e (.plain id) code)
    (hes : ExprsRealized a image n call K visible es τs code') (hbase : ∀ ν, e ≠ .base ν)
    (hne : id ≠ TypeId.unit) (hi : image.members[i]? = some (.named x.name))
    (hl : a.classes.lookupMethod? id (.named x.name) = some (owner, meth))
    (hfit : a.classes.Fit τs meth.params) :
    ExprRealized a image n call K visible (.call (.member e x ν) es ν') meth.returns
      (code ++ code' ++ [Instr.callVirtual (TypeId.index id) i]) := by
  intro ip stk s m hcode hm
  rw [length_snoc, List.length_append, ← Nat.add_assoc]
  have hcode' := hcode.right
  rw [List.length_append, ← Nat.add_assoc] at hcode'
  have heval : Evaluate.expr a.classes call K.owner K.this (.call (.member e x ν) es ν') = (do
      let receiver ← Evaluate.expr a.classes call K.owner K.this e
      let args ← Evaluate.exprs a.classes call K.owner K.this es
      Evaluate.dispatch a.classes call receiver (.named x.name) args none) := by
    cases e with
    | base ν => exact absurd rfl (hbase ν)
    | _ => rfl
  rw [heval]
  refine (he hcode.left.left hm).bind ?_
  intro v s₁ m₁ hp
  refine (hes hcode.left.right hp.reached).bind ?_
  intro vs s₂ m₂ hq
  refine dispatch_realized W A C hne rfl hi hl hcode'.head ?_ (hp.keeps.trans hq.keeps)
    (hp.typed.keeps hq.keeps) hq.typed hfit
  simpa using hq.reached

/-- A call of the method that the parent class has. -/
theorem baseCall_realized (W : WellTyped a) (A : Assembled a image)
    (C : CallsRealized a image n call) {x : Ident} {ν₀ ν ν' : Typing} {es : List (Expr Typing)}
    {p owner i : Nat} {meth : Method} {τs : List Ty} {code : List Instr}
    (hes : ExprsRealized a image n call K visible es τs code)
    (hp : a.classes.parent? K.owner = some p) (hi : image.members[i]? = some (.named x.name))
    (hl : a.classes.lookupMethod? p (.named x.name) = some (owner, meth))
    (hfit : a.classes.Fit τs meth.params) :
    ExprRealized a image n call K visible (.call (.member (.base ν₀) x ν) es ν') meth.returns
      ([Instr.load 0] ++ code ++ [Instr.invoke (TypeId.index p) i]) := by
  rintro ip stk s m hcode ⟨L, h, rfl, hK⟩
  rw [length_snoc, List.length_append, ← Nat.add_assoc]
  have hcode' := hcode.right
  rw [List.length_append, ← Nat.add_assoc] at hcode'
  have hlt := ClassTable.lookupMethod_lt hl
  refine .step hK.heapTyped (step_load hcode.left.left.head hK.locals.this_slot) ?_
  have hat : K.At a.classes visible (ip + 1) (K.this :: stk) s _ := ⟨L, h, rfl, hK⟩
  refine (hes hcode.left.right hat).bind ?_
  intro vs s₁ m₁ hq
  obtain ⟨L₁, h₁, rfl, hK₁⟩ := hq.reached
  obtain ⟨owner', body, T⟩ := W.target A (W.parent_ne_unit hp) (ClassTable.isSubclass_refl hlt) rfl
    hi hl
  have hthis : K.this.HasType a.classes s₁.objects (.plain owner') := by
    refine hK₁.receiver.assign W.rooted ?_
    exact (ClassTable.isSubclass_link W.rooted hp).mpr (.inr T.inherits)
  rw [hp]
  refine T.push W C hK₁ hq.keeps hthis hq.typed hfit hK₁.heapTyped ?_
  have hlen : body.arguments = (K.this :: vs).length := by
    rw [T.arguments, ← List.Forall₂.length_eq hfit, ← List.Forall₂.length_eq hq.typed]
    rfl
  simpa using step_invoke hcode'.head T.resolve hlen

theorem binary_realized (W : WellTyped a) (A : Assembled a image) (C : CallsRealized a image n call)
    {op : BinaryOp} {l r : Expr Typing} {ν : Typing} {id owner i k : Nat} {meth : Method}
    {code code' : List Instr} (hl : ExprRealized a image n call K visible l τ code)
    (hr : ExprRealized a image n call K visible r υ code') (hτ : l.note.type = some τ)
    (hυ : r.note.type = some υ) (hd : Lower.isDedicated op τ υ = false)
    (hnamed : a.classes.Names τ) (hop : OperatorClass op τ id)
    (hi : image.members[i]? = some (.binary op))
    (hk : TypeId.construct? (Lower.classOf τ) = some k)
    (hm : a.classes.lookupMethod? id (.binary op) = some (owner, meth))
    (hfit : ∀ p ∈ meth.params.head?, a.classes.isAssignable υ p = true) :
    ExprRealized a image n call K visible (.binary op l r ν) meth.returns (code ++ code' ++
      [if τ.isNullable && op.isEquality then .virtualOrAny k i else .callVirtual k i]) := by
  have hparams : a.classes.Fit [υ] meth.params := by
    obtain ⟨p, hp⟩ := List.length_eq_one_iff.mp ((W.operator_params hm).1 op rfl)
    rw [hp] at hfit ⊢
    exact .cons (hfit p rfl) .nil
  intro ip stk s m hcode hat
  rw [length_snoc, List.length_append, ← Nat.add_assoc]
  have hcode' := hcode.right.head
  rw [List.length_append, ← Nat.add_assoc] at hcode'
  refine (hl hcode.left.left hat).bind ?_
  intro v s₁ m₁ hp
  refine (hr hcode.left.right hp.reached).bind ?_
  intro w s₂ m₂ hq
  obtain ⟨hne, rfl⟩ := TypeId.ne_unit_of_construct hk
  rw [hτ, hυ, isPrimitive_eq, hd, if_neg (by decide)]
  have hkeeps := hp.keeps.trans hq.keeps
  have hv := hp.typed.keeps hq.keeps
  have hargs : ValuesTyped a.classes s₂.objects [w] [υ] := .cons hq.typed .nil
  unfold OperatorClass at hop
  cases hn : τ.isNullable && op.isEquality with
  | true =>
    rw [hn, if_pos rfl] at hop
    subst hop
    have hlt : Lower.classOf τ < a.classes.size := by
      cases τ with
      | null => exact Nat.lt_of_lt_of_le (by decide) W.first_le
      | plain c | option c => exact hnamed c rfl
    simp only [hn, if_true] at hcode'
    simp only [Option.any_some, hn, if_true]
    exact dispatch_any_realized W A C hne hlt rfl hi hm hcode' hq.reached hkeeps hv hargs hparams
  | false =>
    rw [hn, if_neg (by decide)] at hop
    obtain ⟨rfl, hne'⟩ := hop
    simp only [hn] at hcode'
    simp only [Option.any_some, hn]
    exact dispatch_realized W A C hne' rfl hi hm hcode' hq.reached hkeeps hv hargs hparams

theorem unary_realized (W : WellTyped a) (A : Assembled a image) (C : CallsRealized a image n call)
    {op : UnaryOp} {e : Expr Typing} {ν : Typing} {id owner i : Nat} {meth : Method}
    {code : List Instr} (he : ExprRealized a image n call K visible e (.plain id) code)
    (hτ : e.note.type = some (.plain id)) (hd : Lower.isDedicatedUnary op (.plain id) = false)
    (hne : id ≠ TypeId.unit) (hi : image.members[i]? = some (.unary op))
    (hm : a.classes.lookupMethod? id (.unary op) = some (owner, meth)) :
    ExprRealized a image n call K visible (.unary op e ν) meth.returns
      (code ++ [Instr.callVirtual (TypeId.index id) i]) := by
  intro ip stk s m hcode hat
  rw [length_snoc]
  refine (he hcode.left hat).bind ?_
  intro v s₁ m₁ hp
  rw [hτ, isPrimitive_unary_eq, hd, if_neg (by decide)]
  have hfit : a.classes.Fit [] meth.params := by
    rw [(W.operator_params hm).2 op rfl]
    exact .nil
  exact dispatch_realized W A C hne rfl hi hm hcode.right.head hp.reached hp.keeps hp.typed .nil hfit

/-! ## New objects -/

/-- Making an object: it is blank in the construct of its class, and its field initializer runs. -/
theorem instantiate_realized (W : WellTyped a) (A : Assembled a image)
    (C : CallsRealized a image n call) {id : Nat} {code : Array Instr} {cs : List Frame}
    (hinst : a.classes.Inheritable id) (hcode : code[ip]? = some (.new (TypeId.index id)))
    (H : HeapRel a.classes s.objects h) :
    Realizes image (HeapTyped a) n (Evaluate.instantiate call id s)
      ⟨⟨code, ip, stk, L⟩, cs, h, s.console⟩
      (Returned a.classes ⟨code, ip + 1, stk, L⟩ cs s (.plain id)) := by
  have hlt := W.inheritable_lt hinst
  obtain ⟨con, hcon, _, hcount, _⟩ := construct_of_class W A hlt hinst.ne_unit
  have hrel := H.allocate W hinst hcount
  have hk : Keeps s.objects (s.objects ++ [⟨id, fun _ _ => .null⟩]) := .append _
  obtain ⟨i₀, hi₀⟩ := member_of_any A ⟨_, .tail _ (.head _), rfl⟩
  obtain ⟨i, hi⟩ : ∃ i, image.memberId? .initializer = some i := by
    cases hf : image.memberId? .initializer with
    | some i => exact ⟨i, rfl⟩
    | none =>
      have := Array.findIdx?_eq_none_iff.mp hf _ (Array.mem_of_getElem? hi₀)
      simp at this
  have hmember : image.members[i]? = some .initializer := by
    obtain ⟨hilt, hkey, _⟩ := Array.findIdx?_eq_some_iff_getElem.mp hi
    rw [Array.getElem?_eq_getElem hilt]
    exact congrArg some (by simpa using hkey)
  have hnew : (Value.object s.objects.length).HasType a.classes
      (s.objects ++ [⟨id, fun _ _ => .null⟩]) (.plain id) :=
    .of_class (by simp [Value.classId?]) rfl (ClassTable.isSubclass_refl hlt)
  have hstep {owner : Nat} {body : Body}
      (hr : image.resolve? (TypeId.index id) i = some (owner, body)) :
      Machine.step image ⟨⟨code, ip, stk, L⟩, cs, h, s.console⟩ =
        Machine.call image ⟨⟨code, ip + 1, stk, L⟩, cs,
          (h.allocate (TypeId.index id) con.fieldCount).2, s.console⟩ body
          [.object s.objects.length] := by
    rw [← H.size]
    exact step_new hcode hcon hi hr
  show Realizes image _ n ((do
    Evaluate.prepare call id (.object s.objects.length)
    return .object s.objects.length : Eval Value)
      { s with objects := s.objects ++ [⟨id, fun _ _ => .null⟩] }) _ _
  rcases resolve_initializer W A hinst hmember with ⟨hb, hr⟩ | ⟨hu, body, hr, hbody⟩
  · -- The root's initializer returns the object and does nothing else.
    rw [Evaluate.prepare, if_pos hb]
    exact .step ⟨s.objects, H⟩ (hstep hr) (.pure ⟨⟨_, rfl, hrel⟩, hk, rfl, hnew⟩)
  · have hprepare : (do
        Evaluate.prepare call id (.object s.objects.length)
        return .object s.objects.length : Eval Value) = (do
        let _ ← call id .initializer [.object s.objects.length]
        return .object s.objects.length) := by
      rw [Evaluate.prepare, if_neg hu]
      funext s'
      simp only [bind]
      cases call id .initializer [.object s.objects.length] s' with
      | mk r s'' => cases r <;> rfl
    rw [hprepare]
    have hrel' : HeapRel a.classes
        ({ s with objects := s.objects ++ [⟨id, fun _ _ => .null⟩] } : EvalState).objects _ := hrel
    refine (C hbody .initializer hrel' hnew .nil ⟨s.objects, H⟩ (hstep hr)).bind ?_
    rintro w s₁ m₁ ⟨hret, hinit⟩
    obtain rfl := hinit rfl
    exact .pure ⟨hret.machine, hk.trans hret.keeps, hret.locals, hret.typed⟩

theorem new_realized (W : WellTyped a) (A : Assembled a image) (C : CallsRealized a image n call)
    {c : Ident} {ν : Typing} {es : List (Expr Typing)} {id i : Nat} {meth : Method} {τs : List Ty}
    {code : List Instr} (hes : ExprsRealized a image n call K visible es τs code)
    (hid : a.classes.find? c.name = some id) (hctor : a.classes.constructor? id = some meth)
    (hi : image.members[i]? = some .constructor) (hfit : a.classes.Fit τs meth.params) :
    ExprRealized a image n call K visible (.new c es ν) (.plain id)
      ([Instr.new (TypeId.index id), .dup] ++ code ++ [Instr.invoke (TypeId.index id) i, .pop]) := by
  intro ip stk s m hcode hm
  have hinst := W.constructor_inheritable hctor
  have hlen : ip + ([Instr.new (TypeId.index id), .dup] ++ code ++
      [Instr.invoke (TypeId.index id) i, .pop]).length = ip + 2 + code.length + 1 + 1 := by
    simp
    omega
  rw [hlen]
  have hcode' := hcode.right
  rw [List.length_append, ← Nat.add_assoc] at hcode'
  obtain ⟨r, hr, hmeth⟩ := Option.bind_eq_some_iff.mp hctor
  obtain ⟨body, hres, hbody, hargs⟩ := resolve_method W A (W.inheritable_lt hinst) hinst.ne_unit hi
    (by simp) (ClassTable.lookupMethod_own hr hmeth)
  rw [Evaluate.expr, hid]
  obtain ⟨L, h, rfl, hK⟩ := hm
  refine (instantiate_realized W A C hinst hcode.left.left.head hK.heap).bind ?_
  intro o s₁ m₁ hret
  have hp := hret.pushed hK .refl
  obtain ⟨L₁, h₁, rfl, hK₁⟩ := hp.reached
  refine .step hK₁.heapTyped (step_dup hcode.left.left.tail.head) ?_
  have hat : K.At a.classes visible (ip + 2) (o :: o :: stk) s₁ _ := ⟨L₁, h₁, rfl, hK₁⟩
  refine (hes hcode.left.right hat).bind ?_
  intro vs s₂ m₂ hq
  obtain ⟨L₂, h₂, rfl, hK₂⟩ := hq.reached
  have hcount : body.arguments = (o :: vs).length := by
    rw [hargs, ← List.Forall₂.length_eq hfit, ← List.Forall₂.length_eq hq.typed]
    rfl
  have hstep : Machine.step image
      ⟨⟨K.code, ip + 2 + code.length, vs.reverse ++ o :: o :: stk, L₂⟩, K.callers, h₂, s₂.console⟩ =
      Machine.call image
        ⟨⟨K.code, ip + 2 + code.length + 1, o :: stk, L₂⟩, K.callers, h₂, s₂.console⟩ body
        (o :: vs) := by
    simpa using step_invoke hcode'.head hres hcount
  refine (C.push hbody (.constructor hctor) hK₂ .refl (hp.typed.keeps hq.keeps)
    (hq.typed.fit W.rooted hfit) hK₂.heapTyped hstep).bind ?_
  rintro w s₃ m₃ ⟨hret, _⟩
  obtain ⟨L₃, h₃, rfl, hK₃⟩ := hret.reached
  have hk := hq.keeps.trans hret.keeps
  exact hK₃.push hK₃.heapTyped (step_pop hcode'.tail.head) (hp.keeps.trans hk) (hp.typed.keeps hk)

/-! ## All expressions -/

mutual

/-- The code of a well-typed expression does what its evaluation does. -/
theorem expr_realized (W : WellTyped a) (A : Assembled a image) (C : CallsRealized a image n call)
    {env : Environment} {result : Ty} (hin : env.Inside a.classes K.owner result)
    (hcls : K.owner < a.classes.size) (hnamed : ∀ b ∈ env.visible, a.classes.Names b.type) :
    ∀ (e : Expr Typing) {τ : Ty} {code : List Instr}, Typed env e τ →
      Emits image.pools a.classes (LocalsRel.names env.visible) e code →
      ExprRealized a image n call K env.visible e τ code
  | .number x ν, τ, code, he, hc => by
    cases he
    cases hc with
    | number hi => exact number_realized W hi
  | .string c ν, τ, code, he, hc => by
    cases he
    cases hc with
    | string hi => exact string_realized W hi
  | .boolean b ν, τ, code, he, hc => by
    cases he
    cases hc
    exact boolean_realized W
  | .null ν, τ, code, he, hc => by
    cases hc
    exact null_realized
  | .name x ν, τ, code, he, hc => by
    cases he with
    | name hτ =>
      cases hc with
      | name hi => exact name_realized (Environment.typeOf_eq x ▸ hτ) hi
  | .this ν, τ, code, he, hc => by
    cases he with
    | this hid =>
      cases hc
      rw [hin.thisClass] at hid
      cases hid
      exact this_realized rfl fun _ h => h
  | .base ν, τ, code, he, hc => by
    cases he with
    | base hid hp =>
      cases hc
      rw [hin.thisClass] at hid
      cases hid
      rw [hin.classes] at hp
      refine this_realized rfl fun _ h => h.assign W.rooted ?_
      exact ClassTable.isSubclass_parent W.rooted hp
  | .member e x ν, τ, code, he, hc => by
    cases he with
    | member he hne hf =>
      cases hc with
      | member hc hτ hf' =>
        rw [he.note_type] at hτ
        cases hτ
        rw [hin.classes] at hf
        cases hf.symm.trans hf'
        exact member_realized W (expr_realized W A C hin hcls hnamed e he hc) he.note_type hf
  | .call e es ν', τ, code, he, hc => by
    cases e with
    | member o x ν =>
      cases he with
      | call ho hne hm _ hlen hes hfit =>
        cases hc with
        | call hc hτ hk hi hcs =>
          rw [ho.note_type] at hτ
          cases hτ
          obtain ⟨_, rfl⟩ := TypeId.ne_unit_of_construct hk
          rw [hin.classes] at hm hfit
          have hargs := exprs_realized W A C hin hcls hnamed es hlen hes hcs
          by_cases hbase : ∃ ν₀, o = .base ν₀
          · obtain ⟨ν₀, rfl⟩ := hbase
            cases ho with
            | base hid hp =>
              cases hc
              rw [hin.thisClass] at hid
              cases hid
              rw [hin.classes] at hp
              exact baseCall_realized W A C hargs hp hi hm hfit
          · have hcall : Lower.call o = Instr.callVirtual := by
              cases o with
              | base ν₀ => exact absurd ⟨ν₀, rfl⟩ hbase
              | _ => rfl
            rw [hcall]
            exact call_realized W A C (expr_realized W A C hin hcls hnamed o ho hc) hargs
              (fun ν₀ h => hbase ⟨ν₀, h⟩) hne hi hm hfit
    | _ => cases he
  | .new c es ν, τ, code, he, hc => by
    cases he with
    | new hid hctor _ hlen hes hfit =>
      cases hc with
      | new hid' hk hi hcs =>
        rw [hin.classes] at hid hctor hfit
        cases hid.symm.trans hid'
        obtain ⟨_, rfl⟩ := TypeId.ne_unit_of_construct hk
        exact new_realized W A C (exprs_realized W A C hin hcls hnamed es hlen hes hcs) hid hctor hi
          hfit
  | .assign e v ν', τ, code, he, hc => by
    cases e with
    | name x ν =>
      cases he with
      | assignName hτ hv hfit =>
        cases hc with
        | assignName hi hc =>
          rw [hin.classes] at hfit
          exact assignName_realized W (expr_realized W A C hin hcls hnamed v hv hc) hfit
            (Environment.typeOf_eq x ▸ hτ) hi
    | member o x ν =>
      cases he with
      | assignMember ho hne hf _ hb hv hfit =>
        cases hc with
        | assignMember hc hτ hf' hc' =>
          rw [ho.note_type] at hτ
          cases hτ
          rw [hin.classes] at hf hb hfit
          cases hf.symm.trans hf'
          exact assignMember_realized W (expr_realized W A C hin hcls hnamed o ho hc)
            (expr_realized W A C hin hcls hnamed v hv hc') ho.note_type hf hb hfit
    | _ => cases he
  | .binary op l r ν, τ, code, he, hc => by
    cases he with
    | binary hl hr hop hm _ hfit =>
      rw [hin.classes] at hm hfit
      cases hc with
      | primitive hc hc' hτ hυ hd =>
        rw [hl.note_type] at hτ
        rw [hr.note_type] at hυ
        cases hτ
        cases hυ
        rw [CallsLemmas.binary_returns W hd hop hm]
        exact primitive_realized W (expr_realized W A C hin hcls hnamed l hl hc)
          (expr_realized W A C hin hcls hnamed r hr hc') hl.note_type hr.note_type hd
      | binary hc hc' hτ hυ hd hk hi =>
        rw [hl.note_type] at hτ
        rw [hr.note_type] at hυ
        cases hτ
        cases hυ
        exact binary_realized W A C (expr_realized W A C hin hcls hnamed l hl hc)
          (expr_realized W A C hin hcls hnamed r hr hc') hl.note_type hr.note_type hd
          (W.typed_names hin hcls hnamed hl) hop hi hk hm hfit
  | .unary op e ν, τ, code, he, hc => by
    cases he with
    | unary he hne hm =>
      rw [hin.classes] at hm
      cases hc with
      | unaryPrimitive hc hτ hd =>
        rw [he.note_type] at hτ
        cases hτ
        rw [CallsLemmas.unary_returns W hd hm]
        exact unaryPrimitive_realized W (expr_realized W A C hin hcls hnamed e he hc) he.note_type hd
      | unary hc hτ hd hk hi =>
        rw [he.note_type] at hτ
        cases hτ
        obtain ⟨_, rfl⟩ := TypeId.ne_unit_of_construct hk
        exact unary_realized W A C (expr_realized W A C hin hcls hnamed e he hc) he.note_type hd hne
          hi hm
  | .assert e ν, τ, code, he, hc => by
    cases he with
    | assert he =>
      cases hc with
      | assert hc => exact assert_realized (expr_realized W A C hin hcls hnamed e he hc)
  | .instanceTest e w ν, τ, code, he, hc => by
    cases he with
    | instanceTest he =>
      cases hc with
      | nullTest hc hw => exact nullTest_realized W (expr_realized W A C hin hcls hnamed e he hc) hw
      | instanceTest hc hw hυ hk =>
        exact instanceTest_realized W A (expr_realized W A C hin hcls hnamed e he hc) hw hυ hk
  | .cast e w ν, τ, code, he, hc => by
    cases he with
    | cast he hw =>
      rw [hin.classes] at hw
      cases hc with
      | cast hc hw' hυ hk =>
        rw [hw] at hw'
        cases hw'
        exact cast_realized W A (expr_realized W A C hin hcls hnamed e he hc) hw hυ hk
          (Registration.resolveType_names hw _ hυ)

/-- The code of well-typed arguments does what their evaluation does. -/
theorem exprs_realized (W : WellTyped a) (A : Assembled a image) (C : CallsRealized a image n call)
    {env : Environment} {result : Ty} (hin : env.Inside a.classes K.owner result)
    (hcls : K.owner < a.classes.size) (hnamed : ∀ b ∈ env.visible, a.classes.Names b.type) :
    ∀ (es : List (Expr Typing)) {τs : List Ty} {codes : List (List Instr)}, es.length = τs.length →
      (∀ p ∈ es.zip τs, Typed env p.1 p.2) →
      List.Forall₂ (Emits image.pools a.classes (LocalsRel.names env.visible)) es codes →
      ExprsRealized a image n call K env.visible es τs codes.flatten
  | [], τs, codes, hlen, _, hcs => by
    obtain rfl := List.length_eq_zero_iff.mp hlen.symm
    cases hcs
    exact exprs_nil
  | e :: es, τs, codes, hlen, hes, hcs => by
    match τs with
    | τ :: τs =>
      rw [List.zip_cons_cons, List.forall_mem_cons] at hes
      cases hcs with
      | cons hc hcs =>
        exact exprs_cons (expr_realized W A C hin hcls hnamed e hes.1 hc)
          (exprs_realized W A C hin hcls hnamed es (Nat.succ.inj hlen) hes.2 hcs)

end

end

end ClassLang
