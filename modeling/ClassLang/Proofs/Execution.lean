import ClassLang.Proofs.Evaluation
import ClassLang.Proofs.Resolution

/-!
# Execution

What it means that the machine does what an evaluation does (`Realizes`): it reaches a state for the
value, or it stops with the same fault, or it goes on for as many steps as the evaluation was given;
and all machines on the way satisfy an invariant `G`. Realization is compositional (`Realizes.bind`), and
each instruction has one lemma that gives the machine behind it.
-/

namespace ClassLang

/-- A fault that a checked program may meet. -/
def Fault.Ordinary : Fault → Prop
  | .stackUnderflow | .missingBody _ _ | .code _ => False
  | .kind f => f.found = .null
  | .nullReceiver _ | .nullAssertion | .invalidCast _ _ | .malformedInput => True

/-- `Steps image G k m m'`: `k` steps lead from `m` to `m'`, and `G` holds of every machine that makes
one of them. -/
inductive Steps (image : Image) (G : Machine → Prop) : Nat → Machine → Machine → Prop
  | refl {m : Machine} : Steps image G 0 m m
  | step {k : Nat} {m m' m'' : Machine} :
      G m → m.step image = .next m' → Steps image G k m' m'' → Steps image G (k + 1) m m''

namespace Steps

variable {image : Image} {G : Machine → Prop} {k l : Nat} {m m' m'' : Machine}

theorem trans (h : Steps image G k m m') (h' : Steps image G l m' m'') :
    Steps image G (k + l) m m'' := by
  induction h with
  | refl => rwa [Nat.zero_add]
  | step hG hstep _ ih =>
    rw [Nat.succ_add]
    exact .step hG hstep (ih h')

theorem one (hG : G m) (hstep : m.step image = .next m') : Steps image G 1 m m' :=
  .step hG hstep .refl

/-- A run goes through all machines of its steps. -/
theorem run_add (h : Steps image G k m m') (bound : Nat) :
    m.run image (k + bound) = m'.run image bound := by
  induction h with
  | refl => rw [Nat.zero_add]
  | step _ hstep _ ih =>
    rw [Nat.succ_add, Machine.run, hstep]
    exact ih

/-- Every machine of the run satisfies the invariant but perhaps the last. -/
theorem run_of_lt (h : Steps image G k m m') {bound : Nat} (hlt : bound < k) :
    ∃ m₁, m.run image bound = .unfinished m₁ ∧ G m₁ ∧ ∃ m₂, m₁.step image = .next m₂ := by
  induction h generalizing bound with
  | refl => exact absurd hlt (Nat.not_lt_zero _)
  | step hG hstep _ ih =>
    cases bound with
    | zero => exact ⟨_, rfl, hG, _, hstep⟩
    | succ bound =>
      rw [Machine.run, hstep]
      exact ih (Nat.lt_of_succ_lt_succ hlt)

/-- A run whose last machine ends it. -/
theorem run_end {r : RunResult} (h : Steps image G k m m') (hG : G m')
    (hend : ∀ bound, m'.run image (bound + 1) = r) (bound : Nat) :
    (bound ≤ k ∧ ∃ m₁, m.run image bound = .unfinished m₁ ∧ G m₁) ∨
      (k < bound ∧ m.run image bound = r) := by
  rcases Nat.lt_trichotomy bound k with hlt | rfl | hlt
  · obtain ⟨m₁, hrun, hG₁, _⟩ := h.run_of_lt hlt
    exact .inl ⟨Nat.le_of_lt hlt, m₁, hrun, hG₁⟩
  · exact .inl ⟨Nat.le_refl _, m', h.run_add 0, hG⟩
  · obtain ⟨l, rfl⟩ : ∃ l, bound = k + (l + 1) := ⟨bound - k - 1, by omega⟩
    exact .inr ⟨hlt, (h.run_add _).trans (hend l)⟩

end Steps

/-- The machine does what an evaluation does whose outcome is `r`; `post` relates the value and the state
to the machine that is reached. -/
def Realizes (image : Image) (G : Machine → Prop) (n : Nat) {α : Type} (r : Except Stop α × EvalState)
    (m : Machine) (post : α → EvalState → Machine → Prop) : Prop :=
  match r with
  | (.ok v, s) => ∃ k m', Steps image G k m m' ∧ post v s m'
  | (.error (.fault cause), s) => cause.Ordinary ∧
      ∃ k m', Steps image G k m m' ∧ G m' ∧ m'.step image = .fault cause s.console
  | (.error .stuck, _) => False
  | (.error .unfinished, _) => ∃ k m', n ≤ k ∧ Steps image G k m m'

namespace Realizes

variable {image : Image} {G : Machine → Prop} {n : Nat} {α β : Type} {m m' : Machine}
  {P : α → EvalState → Machine → Prop} {Q : β → EvalState → Machine → Prop}
  {r : Except Stop α × EvalState}

theorem pure {v : α} {s : EvalState} (h : P v s m) :
    Realizes image G n ((Pure.pure v : Eval α) s) m P :=
  ⟨0, m, .refl, h⟩

theorem steps {k : Nat} (hk : Steps image G k m m') (h : Realizes image G n r m' P) :
    Realizes image G n r m P := by
  obtain ⟨x, s⟩ := r
  match x with
  | .ok v =>
    obtain ⟨l, m'', hl, hp⟩ := h
    exact ⟨k + l, m'', hk.trans hl, hp⟩
  | .error (.fault cause) =>
    obtain ⟨hc, l, m'', hl, hf⟩ := h
    exact ⟨hc, k + l, m'', hk.trans hl, hf⟩
  | .error .stuck => exact h
  | .error .unfinished =>
    obtain ⟨l, m'', hle, hl⟩ := h
    exact ⟨k + l, m'', Nat.le_trans hle (Nat.le_add_left _ _), hk.trans hl⟩

/-- One step in front. -/
theorem step (hG : G m) (hstep : m.step image = .next m') (h : Realizes image G n r m' P) :
    Realizes image G n r m P :=
  steps (.one hG hstep) h

/-- One step in front, which an unfinished evaluation may count. -/
theorem step_succ (hG : G m) (hstep : m.step image = .next m') (h : Realizes image G n r m' P) :
    Realizes image G (n + 1) r m P := by
  obtain ⟨x, s⟩ := r
  match x with
  | .ok v | .error (.fault cause) | .error .stuck => exact step hG hstep h
  | .error .unfinished =>
    obtain ⟨l, m'', hle, hl⟩ := h
    exact ⟨l + 1, m'', Nat.succ_le_succ hle, .step hG hstep hl⟩

theorem bind {x : Eval α} {f : α → Eval β} {s : EvalState} (h : Realizes image G n (x s) m P)
    (hf : ∀ v s' m', P v s' m' → Realizes image G n (f v s') m' Q) :
    Realizes image G n ((x >>= f) s) m Q := by
  cases hx : x s with
  | mk y s' =>
    rw [hx] at h
    cases y with
    | ok v =>
      obtain ⟨k, m', hk, hp⟩ := h
      rw [Eval.bind_ok hx]
      exact steps hk (hf v s' m' hp)
    | error e =>
      rw [Eval.bind_error hx]
      cases e <;> exact h

/-- The machine may go on behind the value. -/
theorem follow {P' : α → EvalState → Machine → Prop} (h : Realizes image G n r m P)
    (hP : ∀ v s m, P v s m → ∃ k m', Steps image G k m m' ∧ P' v s m') :
    Realizes image G n r m P' := by
  obtain ⟨x, s⟩ := r
  match x with
  | .ok v =>
    obtain ⟨k, m', hk, hp⟩ := h
    obtain ⟨l, m'', hl, hp'⟩ := hP _ _ _ hp
    exact ⟨k + l, m'', hk.trans hl, hp'⟩
  | .error (.fault cause) | .error .stuck | .error .unfinished => exact h

theorem mono {P' : α → EvalState → Machine → Prop} (h : Realizes image G n r m P)
    (hP : ∀ v s m, P v s m → P' v s m) : Realizes image G n r m P' :=
  h.follow fun v s m hp => ⟨0, m, .refl, hP v s m hp⟩

/-- What an evaluation does to the state besides does not matter, as long as the console stays. -/
theorem map {P' : α → EvalState → Machine → Prop} (g : EvalState → EvalState)
    (hg : ∀ s, (g s).console = s.console) (h : Realizes image G n r m P)
    (hP : ∀ v s m, P v s m → P' v (g s) m) : Realizes image G n (r.1, g r.2) m P' := by
  obtain ⟨x, s⟩ := r
  match x with
  | .ok v =>
    obtain ⟨k, m', hk, hp⟩ := h
    exact ⟨k, m', hk, hP _ _ _ hp⟩
  | .error (.fault cause) =>
    obtain ⟨hc, k, m', hk, hG, hstep⟩ := h
    exact ⟨hc, k, m', hk, hG, hstep.trans (by rw [hg])⟩
  | .error .stuck | .error .unfinished => exact h

/-- An evaluation that was given more has gone on for longer. -/
theorem weaken {l : Nat} (hl : l ≤ n) (h : Realizes image G n r m P) : Realizes image G l r m P := by
  obtain ⟨x, s⟩ := r
  match x with
  | .ok v | .error (.fault cause) | .error .stuck => exact h
  | .error .unfinished =>
    obtain ⟨k, m', hle, hk⟩ := h
    exact ⟨k, m', Nat.le_trans hl hle, hk⟩

/-- A fault of the evaluation that is one of the machine. -/
theorem fault {cause : Fault} {s : EvalState} (hc : cause.Ordinary) (hG : G m)
    (hstep : m.step image = .fault cause s.console) :
    Realizes image G n ((Eval.fault cause : Eval α) s) m P :=
  ⟨hc, 0, m, .refl, hG, hstep⟩

theorem unfinished {s : EvalState} : Realizes image G 0 ((Eval.stop .unfinished : Eval α) s) m P :=
  ⟨0, m, Nat.le_refl _, .refl⟩

end Realizes

/-! ## Code -/

/-- The instructions `is` stand in a chunk from index `ip` on. -/
def CodeAt (code : Array Instr) (ip : Nat) (is : List Instr) : Prop :=
  ∀ (j : Nat) i, is[j]? = some i → code[ip + j]? = some i

namespace CodeAt

variable {code : Array Instr} {ip : Nat} {is js : List Instr} {i : Instr}

theorem left (h : CodeAt code ip (is ++ js)) : CodeAt code ip is := fun j i hj =>
  h j i (by rw [List.getElem?_append_left (List.getElem?_eq_some_iff.mp hj).1, hj])

theorem right (h : CodeAt code ip (is ++ js)) : CodeAt code (ip + is.length) js := fun j i hj => by
  rw [Nat.add_assoc]
  exact h _ i (by rw [List.getElem?_append_right (Nat.le_add_right _ _), Nat.add_sub_cancel_left, hj])

theorem head (h : CodeAt code ip (i :: is)) : code[ip]? = some i := h 0 i rfl

theorem tail (h : CodeAt code ip (i :: is)) : CodeAt code (ip + 1) is := fun j i hj => by
  rw [Nat.add_assoc, Nat.add_comm 1]
  exact h (j + 1) i hj

/-- A chunk holds its own code. -/
theorem whole (h : code.toList = is) : CodeAt code 0 is := fun j i hj => by
  rw [Nat.zero_add, ← Array.getElem?_toList, h, hj]

end CodeAt

/-! ## Instructions -/

section

variable {image : Image} {code : Array Instr} {ip : Nat} {stk : List Value} {L : Array Value}
  {cs : List Frame} {h : Heap} {c : Console} {v w : Value}

/-- The machine at an instruction executes it behind it. -/
theorem step_at {i : Instr} (hi : code[ip]? = some i) :
    Machine.step image ⟨⟨code, ip, stk, L⟩, cs, h, c⟩ =
      Machine.execute image ⟨⟨code, ip + 1, stk, L⟩, cs, h, c⟩ i := by
  simp [Machine.step, Frame.fetch, hi]

theorem step_pushConst {i : Nat} (hi : code[ip]? = some (.pushConst i))
    (hv : image.constantValue? i = some v) :
    Machine.step image ⟨⟨code, ip, stk, L⟩, cs, h, c⟩ =
      .next ⟨⟨code, ip + 1, v :: stk, L⟩, cs, h, c⟩ := by
  rw [step_at hi]
  simp [Machine.execute, Machine.pushConstant, hv, Machine.withFrame, Frame.push]

theorem step_pushZero (hi : code[ip]? = some .pushZero) :
    Machine.step image ⟨⟨code, ip, stk, L⟩, cs, h, c⟩ =
      .next ⟨⟨code, ip + 1, .number 0.0 :: stk, L⟩, cs, h, c⟩ := step_at hi

theorem step_pushOne (hi : code[ip]? = some .pushOne) :
    Machine.step image ⟨⟨code, ip, stk, L⟩, cs, h, c⟩ =
      .next ⟨⟨code, ip + 1, .number 1.0 :: stk, L⟩, cs, h, c⟩ := step_at hi

theorem step_pushBoolean {b : Bool} (hi : code[ip]? = some (if b then .pushTrue else .pushFalse)) :
    Machine.step image ⟨⟨code, ip, stk, L⟩, cs, h, c⟩ =
      .next ⟨⟨code, ip + 1, .boolean b :: stk, L⟩, cs, h, c⟩ := by
  cases b <;> exact step_at hi

theorem step_pushNull (hi : code[ip]? = some .pushNull) :
    Machine.step image ⟨⟨code, ip, stk, L⟩, cs, h, c⟩ =
      .next ⟨⟨code, ip + 1, .null :: stk, L⟩, cs, h, c⟩ := step_at hi

theorem step_pop (hi : code[ip]? = some .pop) :
    Machine.step image ⟨⟨code, ip, v :: stk, L⟩, cs, h, c⟩ =
      .next ⟨⟨code, ip + 1, stk, L⟩, cs, h, c⟩ := step_at hi

theorem step_dup (hi : code[ip]? = some .dup) :
    Machine.step image ⟨⟨code, ip, v :: stk, L⟩, cs, h, c⟩ =
      .next ⟨⟨code, ip + 1, v :: v :: stk, L⟩, cs, h, c⟩ := step_at hi

theorem step_load {i : Nat} (hi : code[ip]? = some (.load i)) (hv : L[i]? = some v) :
    Machine.step image ⟨⟨code, ip, stk, L⟩, cs, h, c⟩ =
      .next ⟨⟨code, ip + 1, v :: stk, L⟩, cs, h, c⟩ := by
  rw [step_at hi]
  simp [Machine.execute, Frame.load, hv, Machine.withFrame, Frame.push, Except.map]

theorem step_store {i : Nat} (hi : code[ip]? = some (.store i)) (hlt : i < L.size) :
    Machine.step image ⟨⟨code, ip, v :: stk, L⟩, cs, h, c⟩ =
      .next ⟨⟨code, ip + 1, stk, L.set i v hlt⟩, cs, h, c⟩ := by
  rw [step_at hi]
  simp [Machine.execute, Frame.pop, Frame.store, hlt, Machine.withFrame, bind, Except.bind]

theorem step_jump {target : Nat} (hi : code[ip]? = some (.jump target)) :
    Machine.step image ⟨⟨code, ip, stk, L⟩, cs, h, c⟩ =
      .next ⟨⟨code, target, stk, L⟩, cs, h, c⟩ := step_at hi

theorem step_jumpIfFalse {target : Nat} {b : Bool} (hi : code[ip]? = some (.jumpIfFalse target)) :
    Machine.step image ⟨⟨code, ip, .boolean b :: stk, L⟩, cs, h, c⟩ =
      .next ⟨⟨code, if b then ip + 1 else target, stk, L⟩, cs, h, c⟩ := by
  rw [step_at hi]
  cases b <;> rfl

theorem step_jumpIfFalse_null {target : Nat} (hi : code[ip]? = some (.jumpIfFalse target)) :
    Machine.step image ⟨⟨code, ip, .null :: stk, L⟩, cs, h, c⟩ =
      .fault (.kind (.unexpected .boolean .null)) c := step_at hi

theorem step_return {f : Frame} (hi : code[ip]? = some .return) :
    Machine.step image ⟨⟨code, ip, v :: stk, L⟩, f :: cs, h, c⟩ = .next ⟨f.push v, cs, h, c⟩ :=
  step_at hi

theorem step_return_last (hi : code[ip]? = some .return) :
    Machine.step image ⟨⟨code, ip, v :: stk, L⟩, [], h, c⟩ = .halt v h c := step_at hi

theorem step_getField {o : Nat} (hi : code[ip]? = some (.getField o)) (hv : h.field w o = .ok v) :
    Machine.step image ⟨⟨code, ip, w :: stk, L⟩, cs, h, c⟩ =
      .next ⟨⟨code, ip + 1, v :: stk, L⟩, cs, h, c⟩ := by
  rw [step_at hi]
  simp [Machine.execute, Machine.getField, Frame.pop, hv, Machine.withFrame, Frame.push, bind,
    Except.bind, pure, Except.pure]

theorem step_getField_null {o : Nat} (hi : code[ip]? = some (.getField o)) :
    Machine.step image ⟨⟨code, ip, .null :: stk, L⟩, cs, h, c⟩ =
      .fault (Heap.nullReceiver o) c := step_at hi

theorem step_setField {o : Nat} {h' : Heap} (hi : code[ip]? = some (.setField o))
    (hh : h.setField w o v = .ok h') :
    Machine.step image ⟨⟨code, ip, v :: w :: stk, L⟩, cs, h, c⟩ =
      .next ⟨⟨code, ip + 1, v :: stk, L⟩, cs, h', c⟩ := by
  rw [step_at hi]
  simp [Machine.execute, Machine.setField, Frame.pop, hh, Frame.push, bind, Except.bind, pure,
    Except.pure]

theorem step_setField_null {o : Nat} (hi : code[ip]? = some (.setField o)) :
    Machine.step image ⟨⟨code, ip, v :: .null :: stk, L⟩, cs, h, c⟩ =
      .fault (Heap.nullReceiver o) c := step_at hi

theorem step_isNull (hi : code[ip]? = some .isNull) :
    Machine.step image ⟨⟨code, ip, v :: stk, L⟩, cs, h, c⟩ =
      .next ⟨⟨code, ip + 1, .boolean (v.kind = .null) :: stk, L⟩, cs, h, c⟩ := step_at hi

theorem step_isInstance {k : Nat} {nullable : Bool}
    (hi : code[ip]? = some (.isInstance k nullable)) :
    Machine.step image ⟨⟨code, ip, v :: stk, L⟩, cs, h, c⟩ =
      .next ⟨⟨code, ip + 1, .boolean (h.isInstance image v k nullable) :: stk, L⟩, cs, h, c⟩ :=
  step_at hi

theorem step_cast {k : Nat} {nullable : Bool} (hi : code[ip]? = some (.cast k nullable))
    (hv : h.isInstance image v k nullable = true) :
    Machine.step image ⟨⟨code, ip, v :: stk, L⟩, cs, h, c⟩ =
      .next ⟨⟨code, ip + 1, v :: stk, L⟩, cs, h, c⟩ := by
  rw [step_at hi]
  simp [Machine.execute, Machine.castTop, Frame.peek, Frame.peekAt, hv, Machine.withFrame, bind,
    Except.bind, pure, Except.pure]

theorem step_cast_fault {k : Nat} {nullable : Bool} (hi : code[ip]? = some (.cast k nullable))
    (hv : h.isInstance image v k nullable = false) :
    Machine.step image ⟨⟨code, ip, v :: stk, L⟩, cs, h, c⟩ =
      .fault (.invalidCast (h.text image v)
        (image.constructName k ++ Instr.nullMark nullable)) c := by
  rw [step_at hi]
  simp [Machine.execute, Machine.castTop, Frame.peek, Frame.peekAt, hv, Machine.withFrame, bind,
    Except.bind, throw, throwThe, MonadExceptOf.throw]

theorem step_assert (hi : code[ip]? = some .assert) (hv : v.kind ≠ .null) :
    Machine.step image ⟨⟨code, ip, v :: stk, L⟩, cs, h, c⟩ =
      .next ⟨⟨code, ip + 1, v :: stk, L⟩, cs, h, c⟩ := by
  rw [step_at hi]
  simp [Machine.execute, Frame.peek, Frame.peekAt, hv, Machine.withFrame, bind, Except.bind, pure,
    Except.pure]

theorem step_assert_null (hi : code[ip]? = some .assert) :
    Machine.step image ⟨⟨code, ip, .null :: stk, L⟩, cs, h, c⟩ = .fault .nullAssertion c :=
  step_at hi

/-! ## Calls -/

theorem popMany_args {f : Frame} {args : List Value} {n : Nat} (hn : n = args.length)
    (hf : f.stack = args.reverse ++ stk) : f.popMany n = .ok (args, { f with stack := stk }) := by
  subst hn
  have hlen : args.length ≤ f.depth := by simp [Frame.depth, hf]
  rw [Frame.popMany, if_pos hlen, hf]
  simp

theorem step_invoke {k m : Nat} {owner : Nat} {body : Body} {args : List Value}
    (hi : code[ip]? = some (.invoke k m)) (hr : image.resolve? k m = some (owner, body))
    (hn : body.arguments = args.length) :
    Machine.step image ⟨⟨code, ip, args.reverse ++ stk, L⟩, cs, h, c⟩ =
      Machine.call image ⟨⟨code, ip + 1, stk, L⟩, cs, h, c⟩ body args := by
  have hpop : Frame.popMany ⟨code, ip + 1, args.reverse ++ stk, L⟩ body.arguments =
      .ok (args, ⟨code, ip + 1, stk, L⟩) := popMany_args hn rfl
  rw [step_at hi]
  simp only [Machine.execute, Machine.staticTarget, Machine.resolve, hr, bind, Except.bind]
  rw [hpop]
  rfl

/-- A virtual call: the receiver's construct decides, or another one if the receiver is null. -/
theorem virtualTarget_some {k m own owner owner' : Nat} {declared body : Body} {args : List Value}
    {onNull : Option Nat} {f : Frame} (hr : image.resolve? k m = some (owner, declared))
    (hn : declared.arguments = args.length + 1) (hf : f.stack = (v :: args).reverse ++ stk)
    (hown : (h.construct? v).or onNull = some own)
    (hr' : image.resolve? own m = some (owner', body)) (hn' : body.arguments = args.length + 1) :
    Machine.virtualTarget image h f k m onNull = .ok (body, v :: args, { f with stack := stk }) := by
  have hpeek : f.peekAt (args.length + 1 - 1) = .ok v := by
    simp [Frame.peekAt, hf]
  simp only [Machine.virtualTarget, Machine.resolve, hr, bind, Except.bind, hn, hpeek, hown, hr', hn',
    ne_eq, not_true_eq_false, if_false]
  have hpop : f.popMany (args.length + 1) = .ok (v :: args, { f with stack := stk }) :=
    popMany_args rfl hf
  rw [hpop]
  rfl

theorem virtualTarget_null {k m owner : Nat} {declared : Body} {args : List Value} {f : Frame}
    (hr : image.resolve? k m = some (owner, declared)) (hn : declared.arguments = args.length + 1)
    (hf : f.stack = (v :: args).reverse ++ stk) (hown : h.construct? v = none) :
    Machine.virtualTarget image h f k m none = .error (.nullReceiver (image.memberName m)) := by
  have hpeek : f.peekAt (declared.arguments - 1) = .ok v := by
    simp [Frame.peekAt, hf, hn]
  simp [Machine.virtualTarget, Machine.resolve, hr, bind, Except.bind, hpeek, hown, throw, throwThe,
    MonadExceptOf.throw]

theorem step_callVirtual {k m own owner owner' : Nat} {declared body : Body} {args : List Value}
    (hi : code[ip]? = some (.callVirtual k m)) (hr : image.resolve? k m = some (owner, declared))
    (hn : declared.arguments = args.length + 1) (hown : h.construct? v = some own)
    (hr' : image.resolve? own m = some (owner', body)) (hn' : body.arguments = args.length + 1) :
    Machine.step image ⟨⟨code, ip, (v :: args).reverse ++ stk, L⟩, cs, h, c⟩ =
      Machine.call image ⟨⟨code, ip + 1, stk, L⟩, cs, h, c⟩ body (v :: args) := by
  have htarget : Machine.virtualTarget image h ⟨code, ip + 1, (v :: args).reverse ++ stk, L⟩ k m none =
      .ok (body, v :: args, ⟨code, ip + 1, stk, L⟩) :=
    virtualTarget_some hr hn rfl (by simp [hown]) hr' hn'
  rw [step_at hi]
  simp only [Machine.execute]
  rw [htarget]
  rfl

theorem step_callVirtual_null {k m owner : Nat} {declared : Body} {args : List Value}
    (hi : code[ip]? = some (.callVirtual k m)) (hr : image.resolve? k m = some (owner, declared))
    (hn : declared.arguments = args.length + 1) (hown : h.construct? v = none) :
    Machine.step image ⟨⟨code, ip, (v :: args).reverse ++ stk, L⟩, cs, h, c⟩ =
      .fault (.nullReceiver (image.memberName m)) c := by
  have htarget : Machine.virtualTarget image h ⟨code, ip + 1, (v :: args).reverse ++ stk, L⟩ k m none =
      .error (.nullReceiver (image.memberName m)) := virtualTarget_null hr hn rfl hown
  rw [step_at hi]
  simp only [Machine.execute]
  rw [htarget]
  rfl

theorem step_virtualOrAny {k m own owner owner' : Nat} {declared body : Body} {args : List Value}
    (hi : code[ip]? = some (.virtualOrAny k m)) (hr : image.resolve? k m = some (owner, declared))
    (hn : declared.arguments = args.length + 1)
    (hown : (h.construct? v).or (some TypeId.any) = some own)
    (hr' : image.resolve? own m = some (owner', body)) (hn' : body.arguments = args.length + 1) :
    Machine.step image ⟨⟨code, ip, (v :: args).reverse ++ stk, L⟩, cs, h, c⟩ =
      Machine.call image ⟨⟨code, ip + 1, stk, L⟩, cs, h, c⟩ body (v :: args) := by
  have htarget : Machine.virtualTarget image h ⟨code, ip + 1, (v :: args).reverse ++ stk, L⟩ k m
      (some TypeId.any) = .ok (body, v :: args, ⟨code, ip + 1, stk, L⟩) :=
    virtualTarget_some hr hn rfl hown hr' hn'
  rw [step_at hi]
  simp only [Machine.execute]
  rw [htarget]
  rfl

/-- A new instance: its field initializer is called on it. -/
theorem step_new {k m : Nat} {con : Construct} {owner : Nat} {body : Body}
    (hi : code[ip]? = some (.new k)) (hc : image.construct? k = some con)
    (hm : image.memberId? .initializer = some m)
    (hr : image.resolve? k m = some (owner, body)) :
    Machine.step image ⟨⟨code, ip, stk, L⟩, cs, h, c⟩ =
      Machine.call image ⟨⟨code, ip + 1, stk, L⟩, cs, (h.allocate k con.fieldCount).2, c⟩ body
        [.object h.objects.size] := by
  rw [step_at hi]
  simp [Machine.execute, Machine.new, hc, hm, Machine.resolve, hr, Heap.allocate]

end

end ClassLang
