import ClassLang.Proofs.Correspondence

/-!
# Calls

What a caller may rely on. A member takes and returns values of the types in its signature
(`Signature`), and a call of it is realized if the machine that starts on its body comes back to the
caller with the result on top of the operands (`CallsRealized`). Natives keep this by themselves
(`native_realizes`). A call through a receiver finds, in the receiver's class, a body that takes what the
declared method takes and returns what it returns (`WellTyped.target`).
-/

namespace ClassLang

/-- Values of the given types. -/
def ValuesTyped (t : ClassTable) (objects : List Instance) (vs : List Value) (τs : List Ty) : Prop :=
  List.Forall₂ (fun v τ => v.HasType t objects τ) vs τs

/-- `Signature t owner key σ ρ`: what the class `owner` has under `key` takes arguments of the types `σ`
behind the receiver and returns a value of type `ρ`. -/
inductive Signature (t : ClassTable) (owner : Nat) : MemberKey → List Ty → Ty → Prop
  | initializer : Signature t owner .initializer [] (.plain owner)
  | constructor {m : Method} :
      t.constructor? owner = some m → Signature t owner .constructor m.params .unit
  | method {r : ClassRecord} {key : MemberKey} {m : Method} :
      t.record? owner = some r → r.method? key = some m → key.isInherited →
      Signature t owner key m.params m.returns

/-- A machine whose heap is that of well-typed objects. -/
def HeapTyped (a : Analysis) (m : Machine) : Prop := ∃ objects, HeapRel a.classes objects m.heap

/-- A call has come back: its result `v` is on top of the caller's operands. -/
structure Returned (t : ClassTable) (f : Frame) (callers : List Frame) (s : EvalState) (ρ : Ty)
    (v : Value) (s' : EvalState) (m : Machine) : Prop where
  machine : ∃ h, m = ⟨f.push v, callers, h, s'.console⟩ ∧ HeapRel t s'.objects h
  keeps : Keeps s.objects s'.objects
  locals : s'.locals = s.locals
  typed : v.HasType t s'.objects ρ

/-- Calls are realized: a machine that starts on the body of a member does what the call does. The field
initializer returns the object that it is called on. -/
def CallsRealized (a : Analysis) (image : Image) (n : Nat)
    (call : Nat → MemberKey → List Value → Eval Value) : Prop :=
  ∀ ⦃owner : Nat⦄ ⦃key : MemberKey⦄ ⦃body : Body⦄ ⦃σ : List Ty⦄ ⦃ρ : Ty⦄ ⦃this : Value⦄
    ⦃args : List Value⦄ ⦃s : EvalState⦄ ⦃f : Frame⦄ ⦃callers : List Frame⦄ ⦃h : Heap⦄ ⦃m : Machine⦄,
    BodyOf a image owner key body → Signature a.classes owner key σ ρ →
    HeapRel a.classes s.objects h → this.HasType a.classes s.objects (.plain owner) →
    ValuesTyped a.classes s.objects args σ → HeapTyped a m →
    m.step image = Machine.call image ⟨f, callers, h, s.console⟩ body (this :: args) →
    Realizes image (HeapTyped a) n (call owner key (this :: args) s) m fun v s' m' =>
      Returned a.classes f callers s ρ v s' m' ∧ (key = .initializer → v = this)

namespace ValuesTyped

variable {t : ClassTable} {objects objects' : List Instance} {vs : List Value} {τs σs : List Ty}

theorem keeps (h : ValuesTyped t objects vs τs) (hk : Keeps objects objects') :
    ValuesTyped t objects' vs τs :=
  h.imp fun _ _ hv => hv.keeps hk

theorem fit (ht : t.Rooted) (h : ValuesTyped t objects vs τs) (hfit : t.Fit τs σs) :
    ValuesTyped t objects vs σs := by
  unfold ValuesTyped ClassTable.Fit at *
  induction h generalizing σs with
  | nil => cases hfit; exact .nil
  | cons hv _ ih =>
    cases hfit with
    | cons hτ hrest => exact .cons (hv.assign ht hτ) (ih hrest)

end ValuesTyped

/-! ## Operations on built-in values -/

/-- The outcome of an operation: a value of a type, or a fault that a checked program may meet. -/
def OutcomeTyped (t : ClassTable) (objects : List Instance) (τ : Ty) : Except Fault Value → Prop
  | .ok v => v.HasType t objects τ
  | .error e => e.Ordinary

namespace CallsLemmas

variable {a : Analysis} {image : Image} (W : WellTyped a) {objects : List Instance} {h : Heap}
  {u v w : Value}

include W

theorem number_typed (x : Float) : (Value.number x).HasType a.classes objects .number :=
  .of_class rfl rfl (ClassTable.isSubclass_refl (Nat.lt_of_lt_of_le (by decide) W.first_le))

theorem boolean_typed (b : Bool) : (Value.boolean b).HasType a.classes objects .boolean :=
  .of_class rfl rfl (ClassTable.isSubclass_refl (Nat.lt_of_lt_of_le (by decide) W.first_le))

theorem string_typed (s : String) : (Value.string s).HasType a.classes objects .string :=
  .of_class rfl rfl (ClassTable.isSubclass_refl (Nat.lt_of_lt_of_le (by decide) W.first_le))

/-- A function of two numbers faults on null only. -/
theorem ofNumbers_typed (H : HeapRel a.classes objects h) {τ : Ty} {g : Float → Float → Value}
    (hv : v.HasType a.classes objects .number) (hw : w.HasType a.classes objects .number)
    (hg : ∀ x y, (g x y).HasType a.classes objects τ) :
    OutcomeTyped a.classes objects τ (v.ofNumbers w g) := by
  rcases H.number_cases W hv with rfl | ⟨x, rfl⟩
  · exact rfl
  · rcases H.number_cases W hw with rfl | ⟨y, rfl⟩
    · exact rfl
    · exact hg x y

/-- A native of a built-in class, other than a field initializer, gives a value of the type that its
method returns, or faults on null or on malformed input. -/
theorem native_outcome (H : HeapRel a.classes objects h) {owner : Nat} {b : BuiltinClass}
    {bm : BuiltinMethod} {this : Value} {args : List Value} (hb : Builtin.classes[owner]? = some b)
    (hm : bm ∈ b.methods) (hkey : bm.key ≠ .initializer)
    (hthis : this.HasType a.classes objects (.plain owner))
    (hargs : ValuesTyped a.classes objects args bm.params) (text : Value → String)
    (console : Console) :
    OutcomeTyped a.classes objects bm.returns (bm.native.apply text console (this :: args)).1 := by
  have hbool (b : Bool) : (Value.boolean b).HasType a.classes objects .boolean := boolean_typed W b
  have hnum (x : Float) : (Value.number x).HasType a.classes objects .number := number_typed W x
  match owner, hb with
  | 0, hb =>
    cases hb
    simp only [Builtin.any, List.mem_cons, List.not_mem_nil, or_false] at hm
    rcases hm with rfl | rfl | rfl | rfl
    · cases hargs
      exact .null
    · exact absurd rfl hkey
    · obtain _ | ⟨_, _ | _⟩ := hargs
      exact hbool _
    · obtain _ | ⟨_, _ | _⟩ := hargs
      exact hbool _
  | 1, hb =>
    cases hb
    have hpair {bm : BuiltinMethod} {ρ : Ty} {ops : List (BinaryOp × Native)}
        (hin : bm ∈ Builtin.numberMethods ρ ops) :
        ∃ o ∈ ops, bm = ⟨.binary o.1, [.number], ρ, o.2⟩ := by
      obtain ⟨o, ho, rfl⟩ := List.mem_map.mp hin
      exact ⟨o, ho, rfl⟩
    simp only [Builtin.number, List.mem_append, List.mem_singleton] at hm
    rcases hm with (hm | hm) | rfl
    · obtain ⟨o, ho, rfl⟩ := hpair hm
      obtain _ | ⟨hw, _ | _⟩ := hargs
      simp only [List.mem_cons, List.not_mem_nil, or_false] at ho
      rcases ho with rfl | rfl | rfl | rfl | rfl <;>
        exact ofNumbers_typed W H hthis hw fun _ _ => hnum _
    · obtain ⟨o, ho, rfl⟩ := hpair hm
      obtain _ | ⟨hw, _ | _⟩ := hargs
      simp only [List.mem_cons, List.not_mem_nil, or_false] at ho
      rcases ho with rfl | rfl | rfl | rfl <;>
        exact ofNumbers_typed W H hthis hw fun _ _ => hbool _
    · cases hargs
      rcases H.number_cases W hthis with rfl | ⟨x, rfl⟩
      · exact rfl
      · exact hnum _
  | 2, hb =>
    cases hb
    simp only [Builtin.string, List.mem_singleton] at hm
    subst hm
    obtain _ | ⟨_, _ | _⟩ := hargs
    rcases H.string_cases W hthis with rfl | ⟨x, rfl⟩
    · exact rfl
    · exact string_typed W _
  | 3, hb =>
    cases hb
    simp only [Builtin.boolean, List.mem_cons, List.not_mem_nil, or_false] at hm
    rcases H.boolean_cases W hthis with rfl | ⟨p, rfl⟩
    · rcases hm with rfl | rfl | rfl
      · obtain _ | ⟨_, _ | _⟩ := hargs
        exact rfl
      · obtain _ | ⟨_, _ | _⟩ := hargs
        exact rfl
      · cases hargs
        exact rfl
    · rcases hm with rfl | rfl | rfl
      · obtain _ | ⟨hw, _ | _⟩ := hargs
        rcases H.boolean_cases W hw with rfl | ⟨q, rfl⟩ <;> cases p
        · exact hbool _
        · exact rfl
        · exact hbool _
        · exact hbool _
      · obtain _ | ⟨hw, _ | _⟩ := hargs
        rcases H.boolean_cases W hw with rfl | ⟨q, rfl⟩ <;> cases p
        · exact rfl
        · exact hbool _
        · exact hbool _
        · exact hbool _
      · cases hargs
        exact hbool _
  | 4, hb =>
    cases hb
    simp only [Builtin.console, List.mem_cons, List.not_mem_nil, or_false] at hm
    rcases hm with rfl | rfl | rfl
    · cases hargs
      exact .null
    · obtain _ | ⟨_, _ | _⟩ := hargs
      exact .null
    · cases hargs
      simp only [Native.apply, Console.readLine]
      split
      · exact string_typed W _
      · exact string_typed W _
      · trivial
  | n + 5, hb => cases hb

/-- The signature of a built-in method is that of its entry in the class table. -/
theorem builtin_signature {owner : Nat} {b : BuiltinClass} {bm : BuiltinMethod} {σ : List Ty} {ρ : Ty}
    (hb : Builtin.classes[owner]? = some b) (hm : bm ∈ b.methods)
    (hsig : Signature a.classes owner bm.key σ ρ) :
    bm.key = .initializer ∧ σ = [] ∧ ρ = .plain owner ∨
      bm.key ≠ .initializer ∧ bm.params = σ ∧ bm.returns = ρ := by
  have howner : owner < TypeId.first :=
    Nat.lt_of_lt_of_le (show owner < 5 from (List.getElem?_eq_some_iff.mp hb).1) (by decide)
  -- The entry of a key comes from the one built-in method with that key.
  have hentry {r : ClassRecord} {m : Method} (hr : a.classes.record? owner = some r)
      (hfound : r.method? bm.key = some m) (hkey : bm.key ≠ .initializer) :
      bm.params = m.params ∧ bm.returns = m.returns := by
    obtain ⟨r', hr', _, _, _, hmethods⟩ := ResolutionLemmas.builtin_record hb
    rw [W.builtin owner howner, hr'] at hr
    cases hr
    have hmk : m.key = bm.key := by simpa using List.find?_some hfound
    have hmem : (m.key, m.params, m.returns) ∈ r.methods.map (fun m => (m.key, m.params, m.returns)) :=
      List.mem_map_of_mem (List.mem_of_find?_eq_some hfound)
    rw [hmethods, List.mem_map] at hmem
    obtain ⟨bm', hbm', heq⟩ := hmem
    have hsame := ResolutionLemmas.builtin_unique hb hm (List.mem_filter.mp hbm').1
      (hmk.symm.trans (congrArg (·.1) heq).symm)
    subst hsame
    exact ⟨congrArg (·.2.1) heq, congrArg (·.2.2) heq⟩
  generalize hk : bm.key = key at hsig
  cases hsig with
  | initializer => exact .inl ⟨rfl, rfl, rfl⟩
  | @constructor m hctor =>
    rw [ClassTable.constructor?] at hctor
    obtain ⟨r, hr, hfound⟩ := Option.bind_eq_some_iff.mp hctor
    have hunit : ∀ c ∈ Builtin.classes, ∀ m ∈ c.methods, m.key = .constructor → m.returns = .unit := by
      decide
    refine .inr ⟨by simp, (hentry hr (hk ▸ hfound) (by simp [hk])).1, ?_⟩
    exact hunit b (List.mem_of_getElem? hb) bm hm hk
  | method hr hfound hinh =>
    have hkey : key ≠ .initializer := by
      rintro rfl
      cases hinh
    exact .inr ⟨hkey, hentry hr (hk ▸ hfound) (hk ▸ hkey)⟩

include W in
/-- Natives are realized. -/
theorem native_realizes (A : Assembled a image) {n owner : Nat} {b : BuiltinClass}
    {bm : BuiltinMethod} {σ : List Ty} {ρ : Ty} {this : Value} {args : List Value} {s : EvalState}
    {f : Frame} {callers : List Frame} {m : Machine} (hb : Builtin.classes[owner]? = some b)
    (hm : bm ∈ b.methods) (hsig : Signature a.classes owner bm.key σ ρ)
    (H : HeapRel a.classes s.objects h) (hthis : this.HasType a.classes s.objects (.plain owner))
    (hargs : ValuesTyped a.classes s.objects args σ) (hG : HeapTyped a m)
    (hstep : m.step image =
      Machine.call image ⟨f, callers, h, s.console⟩ (.ofNative bm.native) (this :: args)) :
    Realizes image (HeapTyped a) n (Evaluate.native a.classes bm.native (this :: args) s) m
      fun v s' m' => Returned a.classes f callers s ρ v s' m' ∧ (bm.key = .initializer → v = this) := by
  have htext : h.text image = Value.display a.classes s.objects := funext (H.text_eq W A)
  simp only [Machine.call, Body.ofNative, Native.call, htext] at hstep
  have hout : OutcomeTyped a.classes s.objects ρ
      (bm.native.apply (Value.display a.classes s.objects) s.console (this :: args)).1 ∧
      (bm.key = .initializer →
        (bm.native.apply (Value.display a.classes s.objects) s.console (this :: args)).1 = .ok this) := by
    rcases builtin_signature W hb hm hsig with ⟨hk, rfl, rfl⟩ | ⟨hk, rfl, rfl⟩
    · have hinit : ∀ c ∈ Builtin.classes, ∀ m ∈ c.methods, m.key = .initializer →
          m.native = .anyInit := by decide
      cases hargs
      rw [hinit b (List.mem_of_getElem? hb) bm hm hk]
      exact ⟨hthis, fun _ => rfl⟩
    · exact ⟨native_outcome W H hb hm hk hthis hargs _ _, fun h => absurd h hk⟩
  rw [Evaluate.native]
  revert hout hstep
  generalize bm.native.apply (Value.display a.classes s.objects) s.console (this :: args) = r
  intro hstep hout
  match r, hstep, hout with
  | (.ok v, console), hstep, hout =>
    refine ⟨1, _, .one hG hstep, ⟨⟨_, rfl, H⟩, .refl, rfl, hout.1⟩, fun hk => ?_⟩
    exact Except.ok.inj (hout.2 hk)
  | (.error e, console), hstep, hout =>
    exact ⟨hout.1, 0, m, .refl, hG, hstep⟩

end CallsLemmas

/-! ## Operators with instructions of their own -/

/-- The type of what an operator makes of two numbers or two truth values. -/
def BinaryOp.resultType : BinaryOp → Ty
  | .add | .subtract | .multiply | .divide | .modulo => .number
  | _ => .boolean

/-- The type of what an operator makes of a number or a truth value. -/
def UnaryOp.resultType : UnaryOp → Ty
  | .negate => .number
  | .not => .boolean

/-- An operator method returns a value of the type that the operator's own instruction leaves. -/
def Method.returnsResult (m : Method) : Bool :=
  match m.key with
  | .binary op => m.returns == op.resultType
  | .unary op => m.returns == op.resultType
  | _ => true

/-- The instruction of an operator has the outcome of an operation. -/
def StepsTo (image : Image) (m : Machine) (push : Value → Machine) (t : ClassTable)
    (objects : List Instance) (τ : Ty) (r : Except Fault Value) : Prop :=
  OutcomeTyped t objects τ r ∧ match r with
    | .ok v => m.step image = .next (push v)
    | .error e => m.step image = .fault e m.console

namespace CallsLemmas

variable {a : Analysis} {image : Image} (W : WellTyped a) {objects : List Instance} {h : Heap}
  {v w : Value} {code : Array Instr} {ip : Nat} {stk : List Value} {L : Array Value} {cs : List Frame}
  {c : Console}

theorem dedicated_cases {op : BinaryOp} {τ υ : Ty} (hd : Lower.isDedicated op τ υ = true) :
    τ = .number ∧ υ = .number ∧ op ≠ .and ∧ op ≠ .or ∨
      τ = .boolean ∧ υ = .boolean ∧ (op = .equal ∨ op = .notEqual ∨ op = .and ∨ op = .or) := by
  cases op <;> simp [Lower.isDedicated] at hd ⊢ <;> tauto

/-- The operators of the built-in classes return such values, apart from those of strings. -/
theorem builtin_returns {i : Nat} {key : MemberKey} {r : ClassRecord} {m : Method}
    (hi : i < TypeId.first) (hne : i ≠ TypeId.string) (hr : r ∈ ClassTable.standard.record? i)
    (hm : r.method? key = some m) : m.key = key ∧ m.returnsResult = true := by
  have hall : ∀ i < TypeId.first, i ≠ TypeId.string → ∀ r ∈ ClassTable.standard.record? i,
      r.methods.all Method.returnsResult = true := by decide +kernel
  have hkey : m.key = key := by simpa using List.find?_some hm
  exact ⟨hkey, List.all_eq_true.mp (hall i hi hne r hr) m (List.mem_of_find?_eq_some hm)⟩

include W

/-- What an instruction for a binary operator does with operands of its types. -/
theorem binary_outcome (H : HeapRel a.classes objects h) {op : BinaryOp} {τ υ : Ty}
    (hd : Lower.isDedicated op τ υ = true) (hv : v.HasType a.classes objects τ)
    (hw : w.HasType a.classes objects υ) (hi : code[ip]? = some (.binary op)) :
    StepsTo image ⟨⟨code, ip, w :: v :: stk, L⟩, cs, h, c⟩
      (fun u => ⟨⟨code, ip + 1, u :: stk, L⟩, cs, h, c⟩) a.classes objects op.resultType
      (op.apply v w) := by
  have hbool (b : Bool) : (Value.boolean b).HasType a.classes objects .boolean := boolean_typed W b
  have hnum (x : Float) : (Value.number x).HasType a.classes objects .number := number_typed W x
  unfold StepsTo
  rw [step_at hi]
  rcases dedicated_cases hd with ⟨rfl, rfl, hand, hor⟩ | ⟨rfl, rfl, hop⟩
  · -- A null operand is the same fault on both sides, whichever side looks first.
    rcases H.number_cases W hv with rfl | ⟨x, rfl⟩ <;> rcases H.number_cases W hw with rfl | ⟨y, rfl⟩ <;>
      cases op <;> first
        | exact absurd rfl hand
        | exact absurd rfl hor
        | exact ⟨hbool _, rfl⟩
        | exact ⟨hnum _, rfl⟩
        | exact ⟨rfl, rfl⟩
  · rcases H.boolean_cases W hv with rfl | ⟨p, rfl⟩ <;> rcases H.boolean_cases W hw with rfl | ⟨q, rfl⟩ <;>
      rcases hop with rfl | rfl | rfl | rfl <;> first
        | exact ⟨hbool _, rfl⟩
        | exact ⟨rfl, rfl⟩

theorem unary_outcome (H : HeapRel a.classes objects h) {op : UnaryOp} {τ : Ty}
    (hd : Lower.isDedicatedUnary op τ = true) (hv : v.HasType a.classes objects τ)
    (hi : code[ip]? = some (.unary op)) :
    StepsTo image ⟨⟨code, ip, v :: stk, L⟩, cs, h, c⟩
      (fun u => ⟨⟨code, ip + 1, u :: stk, L⟩, cs, h, c⟩) a.classes objects op.resultType
      (op.apply v) := by
  unfold StepsTo
  rw [step_at hi]
  cases op with
  | negate =>
    obtain rfl : τ = .number := by simpa [Lower.isDedicatedUnary] using hd
    rcases H.number_cases W hv with rfl | ⟨x, rfl⟩
    · exact ⟨rfl, rfl⟩
    · exact ⟨number_typed W _, rfl⟩
  | not =>
    obtain rfl : τ = .boolean := by simpa [Lower.isDedicatedUnary] using hd
    rcases H.boolean_cases W hv with rfl | ⟨b, rfl⟩
    · exact ⟨rfl, rfl⟩
    · exact ⟨boolean_typed W _, rfl⟩

/-- A method of a built-in class is its own or one of the root. -/
theorem builtin_lookup {id owner : Nat} {key : MemberKey} {m : Method} (hid : id < TypeId.first)
    (hl : a.classes.lookupMethod? id key = some (owner, m)) :
    ∃ i, (i = id ∨ i = TypeId.any) ∧ ∃ r ∈ ClassTable.standard.record? i, r.method? key = some m := by
  obtain ⟨hanc, r, hr, hm⟩ := ClassTable.lookupMethod_some hl
  have hi := W.builtin_subclass hid (ClassTable.isSubclass_iff.mpr hanc)
  refine ⟨owner, hi, r, ?_, hm⟩
  have howner : owner < TypeId.first := by
    rcases hi with rfl | rfl
    · exact hid
    · decide
  exact (W.builtin owner howner).symm.trans hr

theorem binary_returns {op : BinaryOp} {τ υ : Ty} {id owner : Nat} {m : Method}
    (hd : Lower.isDedicated op τ υ = true) (hop : OperatorClass op τ id)
    (hl : a.classes.lookupMethod? id (.binary op) = some (owner, m)) : m.returns = op.resultType := by
  have hplain {c : Nat} (h : OperatorClass op (.plain c) id) : c = id := by
    simpa [OperatorClass, Ty.isNullable] using h.1
  rcases dedicated_cases hd with ⟨rfl, _⟩ | ⟨rfl, _⟩
  all_goals
    obtain rfl := hplain hop
    obtain ⟨i, hi, r, hr, hm⟩ := builtin_lookup W (by decide) hl
    have hplace : i < TypeId.first ∧ i ≠ TypeId.string := by rcases hi with rfl | rfl <;> decide
    obtain ⟨hkey, hreturns⟩ := builtin_returns hplace.1 hplace.2 hr hm
    simpa [Method.returnsResult, hkey] using hreturns

theorem unary_returns {op : UnaryOp} {id owner : Nat} {m : Method}
    (hd : Lower.isDedicatedUnary op (.plain id) = true)
    (hl : a.classes.lookupMethod? id (.unary op) = some (owner, m)) : m.returns = op.resultType := by
  have hid : id < TypeId.first ∧ id ≠ TypeId.string := by
    cases op with
    | negate =>
      obtain rfl : id = TypeId.number := by simpa [Lower.isDedicatedUnary, Ty.number] using hd
      decide
    | not =>
      obtain rfl : id = TypeId.boolean := by simpa [Lower.isDedicatedUnary, Ty.boolean] using hd
      decide
  obtain ⟨i, hi, r, hr, hm⟩ := builtin_lookup W hid.1 hl
  have hplace : i < TypeId.first ∧ i ≠ TypeId.string := by
    rcases hi with rfl | rfl
    · exact hid
    · decide
  obtain ⟨hkey, hreturns⟩ := builtin_returns hplace.1 hplace.2 hr hm
  simpa [Method.returnsResult, hkey] using hreturns

end CallsLemmas

/-! ## The target of a call -/

/-- `Target a image sub i key σ ρ owner body`: objects of the class `sub` have the body of the class
`owner` under `key`, it takes arguments of the types `σ` and returns a value of type `ρ`, and the image
finds it under the member index `i`. -/
structure Target (a : Analysis) (image : Image) (sub i : Nat) (key : MemberKey) (σ : List Ty) (ρ : Ty)
    (owner : Nat) (body : Body) : Prop where
  lookup : ∃ m, a.classes.lookupMethod? sub key = some (owner, m)
  resolve : image.resolve? (TypeId.index sub) i = some (TypeId.index owner, body)
  bodyOf : BodyOf a image owner key body
  arguments : body.arguments = σ.length + 1
  inherits : a.classes.isSubclass sub owner = true
  signature : ∃ σ' ρ', Signature a.classes owner key σ' ρ' ∧ a.classes.Fit σ σ' ∧
    a.classes.isAssignable ρ' ρ = true

section

variable {a : Analysis} {image : Image} (W : WellTyped a) (A : Assembled a image)

include W

/-- Every class with a construct inherits from the root. -/
theorem WellTyped.subclass_any {id : Nat} (hid : id < a.classes.size) (hne : id ≠ TypeId.unit) :
    a.classes.isSubclass id TypeId.any = true := by
  induction id, hid using W.rooted.induct with
  | root id hid hn =>
    by_cases hu : id < TypeId.first
    · have hall : ∀ i < 6, i ≠ TypeId.unit → i ≠ TypeId.any →
          ∀ r ∈ ClassTable.standard.record? i, r.parent ≠ none := by decide +kernel
      obtain ⟨r, hr, _⟩ := Hierarchy.HierarchyLemmas.standard_record id hu
      rw [ClassTable.parent_of_record ((W.builtin id hu).trans hr)] at hn
      by_cases hany : id = TypeId.any
      · exact hany ▸ ClassTable.isSubclass_refl hid
      · exact absurd hn (hall id hu hne hany r hr)
    · obtain ⟨i, d, p, r, rfl, _, hc⟩ := W.user_class hid hu
      rw [hc.parent_eq] at hn
      cases hn
  | link id p hid hplt hp ih =>
    exact (ClassTable.isSubclass_link W.rooted hp).mpr (.inr (ih (W.parent_ne_unit hp)))

/-- An operator has as many parameters as it needs. -/
theorem WellTyped.operator_params {id owner : Nat} {key : MemberKey} {m : Method}
    (hl : a.classes.lookupMethod? id key = some (owner, m)) :
    (∀ op, key = .binary op → m.params.length = 1) ∧ (∀ op, key = .unary op → m.params = []) := by
  obtain ⟨_, r, hr, hm⟩ := ClassTable.lookupMethod_some hl
  have hkey : m.key = key := by simpa using List.find?_some hm
  have hmem := List.mem_of_find?_eq_some hm
  have hfits : (∃ op, key = .binary op) ∨ (∃ op, key = .unary op) → key.Fits m.params.length := by
    intro hop
    by_cases hu : owner < TypeId.first
    · have hall : ∀ i < 6, ∀ r ∈ ClassTable.standard.record? i,
          (r.methods.all fun m => match m.key with
            | .binary _ => m.params.length == 1
            | .unary _ => m.params.length == 0
            | _ => true) = true := by decide +kernel
      have := List.all_eq_true.mp (hall owner hu r ((W.builtin owner hu).symm.trans hr)) m hmem
      rcases hop with ⟨op, rfl⟩ | ⟨op, rfl⟩ <;>
        simpa [hkey, MemberKey.Fits] using this
    · obtain ⟨i, d, p, r', rfl, _, hc⟩ := W.user_class (ClassTable.lt_of_record hr) hu
      rw [hc.record] at hr
      cases hr
      have hsig : m.signature ∈ r.methods.map (·.signature) := List.mem_map_of_mem hmem
      rw [hc.registered.methods, List.mem_append] at hsig
      rcases hsig with hsig | hsig
      · obtain ⟨mem, hin, hs⟩ := List.mem_filterMap.mp hsig
        have := hc.registered.fits mem hin _ hs
        rwa [Method.signature, hkey] at this
      · split at hsig
        · have hctor : m.key = .constructor := congrArg (·.1) (List.mem_singleton.mp hsig)
          rw [hkey] at hctor
          rcases hop with ⟨op, rfl⟩ | ⟨op, rfl⟩ <;> cases hctor
        · cases hsig
  refine ⟨fun op h => ?_, fun op h => ?_⟩
  · subst h
    exact hfits (.inl ⟨op, rfl⟩)
  · subst h
    exact List.length_eq_zero_iff.mp (hfits (.inr ⟨op, rfl⟩))

include A

/-- Every subclass of the static class has a target for each of its methods. -/
theorem WellTyped.target {sub sup i owner : Nat} {key : MemberKey} {m : Method}
    (hne : sub ≠ TypeId.unit) (hsub : a.classes.isSubclass sub sup = true) (hkey : key.isInherited)
    (hm : image.members[i]? = some key)
    (hl : a.classes.lookupMethod? sup key = some (owner, m)) :
    ∃ owner' body, Target a image sub i key m.params m.returns owner' body := by
  obtain ⟨owner', m', hl', hconf⟩ := W.lookup_conforms hsub hkey hl
  have hinit : key ≠ .initializer := by
    rintro rfl
    cases hkey
  obtain ⟨body, hr, hbody, hargs⟩ := resolve_method W A (ClassTable.lookupMethod_lt hl') hne hm hinit hl'
  obtain ⟨hanc, r, hrec, hfound⟩ := ClassTable.lookupMethod_some hl'
  refine ⟨owner', body, ⟨m', hl'⟩, hr, hbody, ?_, ClassTable.isSubclass_iff.mpr hanc,
    _, _, .method hrec hfound hkey, hconf.params, hconf.returns⟩
  rw [hargs, List.Forall₂.length_eq hconf.params]

end

end ClassLang
