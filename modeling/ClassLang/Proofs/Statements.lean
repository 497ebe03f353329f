import ClassLang.Proofs.Expressions

/-!
# Statements on the machine

The code of a well-typed statement does what direct evaluation does (`stmt_realized`): it comes to its
end with the new names in their slots, or to a `return` instruction with the result on top. A scope that
is left gives its slots back, and a loop comes by its jump back once in every round, which is why the
machine goes on for at least as many steps as the evaluation has rounds.
-/

namespace ClassLang

/-- An environment of a member: its class, what it returns, and visible names whose types are about
classes of the table. -/
structure Environment.Proper (env : Environment) (t : ClassTable) (cls : Nat) (result : Ty) : Prop where
  inside : env.Inside t cls result
  named : ∀ b ∈ env.visible, t.Names b.type

namespace Activation

/-- The machine is at a `return` instruction with the result on top. -/
structure Returning (K : Activation) (t : ClassTable) (s : EvalState) (ρ : Ty) (v : Value)
    (s' : EvalState) (m : Machine) : Prop where
  machine : ∃ ip stk L h, m = ⟨⟨K.code, ip, v :: stk, L⟩, K.callers, h, s'.console⟩ ∧
    K.code[ip]? = some .return ∧ HeapRel t s'.objects h
  keeps : Keeps s.objects s'.objects
  typed : v.HasType t s'.objects ρ

/-- The machine behind a statement. -/
def After (K : Activation) (t : ClassTable) (visible : List Binding) (ip : Nat) (ρ : Ty)
    (s : EvalState) : Evaluate.Flow → EvalState → Machine → Prop
  | .next, s', m => K.At t visible ip [] s' m ∧ Keeps s.objects s'.objects
  | .returned v, s', m => K.Returning t s ρ v s' m

end Activation

section

variable {a : Analysis} {image : Image} {n : Nat} {call : Nat → MemberKey → List Value → Eval Value}
  {K : Activation} {visible : List Binding} {ip : Nat} {s s₀ : EvalState} {m : Machine} {ρ : Ty}

namespace Activation

theorem After.trans {f : Evaluate.Flow} {s' : EvalState} {m' : Machine}
    (hk : Keeps s₀.objects s.objects) (h : K.After a.classes visible ip ρ s f s' m') :
    K.After a.classes visible ip ρ s₀ f s' m' := by
  cases f with
  | next => exact ⟨h.1, hk.trans h.2⟩
  | returned v => exact ⟨h.machine, hk.trans h.keeps, h.typed⟩

end Activation

/-- Leaving a scope. -/
theorem inScope_realized {x : Eval Evaluate.Flow} {inner : List Binding}
    (hlen : s.locals.length = visible.length)
    (h : Realizes image (HeapTyped a) n (x s) m (K.After a.classes (inner ++ visible) ip ρ s)) :
    Realizes image (HeapTyped a) n (Evaluate.inScope x s) m (K.After a.classes visible ip ρ s) := by
  refine h.map (fun s' => { s' with locals := s'.locals.drop (s'.locals.length - s.locals.length) })
    (fun _ => rfl) ?_
  intro f s' m' hafter
  cases f with
  | next =>
    obtain ⟨⟨L, h, rfl, hK⟩, hk⟩ := hafter
    have hdrop : s'.locals.length - s.locals.length = inner.length := by
      rw [hK.locals.typed.length_eq, hlen, List.length_append, Nat.add_sub_cancel]
    refine ⟨⟨L, h, rfl, hK.room, ?_, hK.heap, hK.receiver⟩, hk⟩
    rw [hdrop]
    exact hK.locals.leave
  | returned v => exact ⟨hafter.machine, hafter.keeps, hafter.typed⟩

/-- A condition and the jump behind it. -/
theorem condition_realized (W : WellTyped a) {e : Expr Typing} {test : List Instr} {target : Nat}
    (he : ExprRealized a image n call K visible e .boolean test) (hcode : CodeAt K.code ip test)
    (hjump : K.code[ip + test.length]? = some (.jumpIfFalse target))
    (hm : K.At a.classes visible ip [] s m) :
    Realizes image (HeapTyped a) n (Evaluate.condition a.classes call K.owner K.this e s) m
      fun b s' m' => K.At a.classes visible (if b then ip + test.length + 1 else target) [] s' m' ∧
        Keeps s.objects s'.objects := by
  refine (he hcode hm).bind ?_
  intro v s₁ m₁ hp
  obtain ⟨L, h, rfl, hK⟩ := hp.reached
  rcases hK.heap.boolean_cases W hp.typed with rfl | ⟨b, rfl⟩
  · show Realizes image _ n ((Eval.fault (.kind (.unexpected .boolean .null)) : Eval Bool) s₁) _ _
    exact hK.fault rfl (step_jumpIfFalse_null hjump)
  · refine .step hK.heapTyped (step_jumpIfFalse hjump) ?_
    exact .pure ⟨⟨L, h, rfl, hK⟩, hp.keeps⟩

/-- A loop: the machine comes by the jump back in every round. -/
theorem loop_realized {test : Eval Bool} {round : Eval Evaluate.Flow} {start inside exit : Nat}
    {back : Nat}
    (htest : ∀ s m, K.At a.classes visible start [] s m → Realizes image (HeapTyped a) n (test s) m
      fun b s' m' => K.At a.classes visible (if b then inside else exit) [] s' m' ∧
        Keeps s.objects s'.objects)
    (hround : ∀ s m, K.At a.classes visible inside [] s m →
      Realizes image (HeapTyped a) n (round s) m (K.After a.classes visible back ρ s))
    (hjump : K.code[back]? = some (.jump start)) {k : Nat} (hk : k ≤ n)
    (hm : K.At a.classes visible start [] s m) :
    Realizes image (HeapTyped a) k (Evaluate.loop test round k s) m
      (K.After a.classes visible exit ρ s) := by
  induction k generalizing s m with
  | zero => exact .unfinished
  | succ k ih =>
    refine ((htest s m hm).weaken hk).bind ?_
    rintro b s₁ m₁ ⟨hat, hkeeps⟩
    cases b with
    | false => exact .pure ⟨hat, hkeeps⟩
    | true =>
      refine ((hround s₁ m₁ hat).weaken hk).bind ?_
      intro f s₂ m₂ hafter
      cases f with
      | returned v => exact .pure ⟨hafter.machine, hkeeps.trans hafter.keeps, hafter.typed⟩
      | next =>
        obtain ⟨⟨L, h, rfl, hK⟩, hkeeps'⟩ := hafter
        refine .step_succ hK.heapTyped (step_jump hjump) ?_
        refine (ih (Nat.le_of_succ_le hk) ⟨L, h, rfl, hK⟩).mono ?_
        intro f s' m' hafter
        exact hafter.trans (hkeeps.trans hkeeps')

/-! ## Environments -/

/-- The environment of a field initializer. -/
theorem ClassTable.inside_proper (t : ClassTable) (id : TypeId) (result : Ty) :
    (t.inside id result).Proper t id result :=
  ⟨⟨rfl, rfl, rfl⟩, by simp [ClassTable.inside, Environment.visible, Environment.beginMember,
    Environment.outside, Scopes.start]⟩

theorem Environment.Proper.enter {env : Environment} {t : ClassTable} {cls : Nat} {result : Ty}
    (h : env.Proper t cls result) : env.enter.Proper t cls result :=
  ⟨h.inside.enter, by simpa using h.named⟩

/-- A statement adds the name that it defines, if it defines one. -/
theorem StmtTyped.grows (W : WellTyped a) {env env' : Environment} {st : Stmt Typing} {cls : Nat}
    (hcls : cls < a.classes.size) (henv : env.Proper a.classes cls ρ) (h : StmtTyped env st env') :
    env'.Proper a.classes cls ρ ∧ (∃ inner, env'.visible = inner ++ env.visible) ∧
      LocalsRel.names env'.visible = st.visible (LocalsRel.names env.visible) := by
  cases h with
  | @define _ _ x w e span τ υ he hdecl hunit hbind =>
    have hvisible := Environment.bind_visible hbind
    have hτ : a.classes.Names τ := by
      cases w with
      | none => exact hdecl.1 ▸ W.typed_names henv.inside hcls henv.named he
      | some w => exact Registration.resolveType_names (henv.inside.classes ▸ hdecl.1)
    refine ⟨⟨henv.inside.bind hbind, ?_⟩, ⟨[⟨x.name, τ⟩], hvisible⟩, ?_⟩
    · rw [hvisible]
      exact List.forall_mem_cons.mpr ⟨hτ, henv.named⟩
    · rw [hvisible]
      rfl
  | «return» | returnNone | ifThen | ifElse | «while» | block | expression =>
    exact ⟨henv, ⟨[], rfl⟩, rfl⟩

/-- A value that initializes a variable is of the variable's type. -/
theorem declared_typed (W : WellTyped a) {objects : List Instance} {v : Value} {w : Option TypeName}
    {τ υ : Ty} (hdecl : a.classes.Declares w υ τ) (hv : v.HasType a.classes objects υ) :
    v.HasType a.classes objects τ := by
  cases w with
  | none => exact hdecl.1 ▸ hv
  | some w => exact hv.assign W.rooted hdecl.2

theorem StmtsTyped.grows (W : WellTyped a) {env env' : Environment} {sts : List (Stmt Typing)}
    {cls : Nat} (hcls : cls < a.classes.size) (henv : env.Proper a.classes cls ρ)
    (h : StmtsTyped env sts env') : ∃ inner, env'.visible = inner ++ env.visible := by
  induction sts generalizing env with
  | nil =>
    cases h
    exact ⟨[], rfl⟩
  | cons st sts ih =>
    cases h with
    | cons hst hsts =>
      obtain ⟨henv₁, ⟨inner, hinner⟩, _⟩ := hst.grows W hcls henv
      obtain ⟨inner', hinner'⟩ := ih henv₁ hsts
      exact ⟨inner' ++ inner, by rw [hinner', hinner, List.append_assoc]⟩

/-! ## All statements -/

theorem Activation.At.locals_length {visible : List Binding} {stk : List Value}
    (hm : K.At a.classes visible ip stk s m) : s.locals.length = visible.length := by
  obtain ⟨L, h, rfl, hK⟩ := hm
  exact hK.locals.typed.length_eq

/-- A branch, in a scope of its own. -/
theorem branch_realized {x : Eval Evaluate.Flow} {env env' : Environment}
    (hgrows : ∃ inner, env'.visible = inner ++ env.enter.visible)
    (hm : K.At a.classes env.visible ip [] s m) {back : Nat}
    (h : Realizes image (HeapTyped a) n (x s) m (K.After a.classes env'.visible back ρ s)) :
    Realizes image (HeapTyped a) n (Evaluate.inScope x s) m
      (K.After a.classes env.visible back ρ s) := by
  obtain ⟨inner, hinner⟩ := hgrows
  rw [Environment.visible_enter] at hinner
  rw [hinner] at h
  exact inScope_realized hm.locals_length h

mutual

/-- The code of a well-typed statement does what its evaluation does. -/
theorem stmt_realized (W : WellTyped a) (A : Assembled a image) (C : CallsRealized a image n call)
    (hcls : K.owner < a.classes.size) :
    ∀ (st : Stmt Typing) {env env' : Environment} {ip : Nat} {code : List Instr} {s : EvalState}
      {m : Machine}, env.Proper a.classes K.owner ρ → StmtTyped env st env' →
      EmitsStmt image.pools a.classes K.room (LocalsRel.names env.visible) ip st code →
      CodeAt K.code ip code → K.At a.classes env.visible ip [] s m →
      Realizes image (HeapTyped a) n (Evaluate.stmt a.classes call K.owner K.this n st s) m
        (K.After a.classes env'.visible (ip + code.length) ρ s)
  | .define x w e span, env, env', ip, code, s, m, henv, hst, hc, hcode, hm => by
    cases hst with
    | define he hdecl _ hbind =>
      cases hc with
      | define hc hroom =>
        rw [length_snoc, Environment.bind_visible hbind]
        refine (expr_realized W A C henv.inside hcls henv.named e he hc hcode.left hm).bind ?_
        intro v s₁ m₁ hp
        obtain ⟨L, h, rfl, hK⟩ := hp.reached
        rw [henv.inside.classes] at hdecl
        rw [← hK.room] at hroom
        refine .step hK.heapTyped (step_store hcode.right.head hroom) (.pure ⟨?_, hp.keeps⟩)
        exact ⟨_, h, rfl, (Array.size_set hroom).trans hK.room,
          hK.locals.define (declared_typed W hdecl hp.typed) hroom, hK.heap, hK.receiver⟩
  | .return (some e) span, env, env', ip, code, s, m, henv, hst, hc, hcode, hm => by
    cases hst with
    | «return» he _ hfit =>
      cases hc with
      | «return» hc =>
        refine (expr_realized W A C henv.inside hcls henv.named e he hc hcode.left hm).bind ?_
        intro v s₁ m₁ hp
        obtain ⟨L, h, rfl, hK⟩ := hp.reached
        rw [henv.inside.classes, henv.inside.returns] at hfit
        exact .pure ⟨⟨_, _, L, h, rfl, hcode.right.head, hK.heap⟩, hp.keeps,
          hp.typed.assign W.rooted hfit⟩
  | .return none span, env, env', ip, code, s, m, henv, hst, hc, hcode, hm => by
    cases hc
    obtain ⟨L, h, rfl, hK⟩ := hm
    refine .step hK.heapTyped (step_pushNull hcode.head) ?_
    exact .pure ⟨⟨_, _, L, h, rfl, hcode.tail.head, hK.heap⟩, .refl, .null⟩
  | .ifThen c b span, env, env', ip, code, s, m, henv, hst, hc, hcode, hm => by
    cases hst with
    | ifThen he hb =>
      cases hc with
      | @ifThen _ _ _ _ _ test code hc hcb =>
        have hlen : ip + (test ++ .jumpIfFalse (ip + test.length + 1 + code.length) :: code).length =
            ip + test.length + 1 + code.length := by
          simp
          omega
        rw [hlen]
        refine (condition_realized W (expr_realized W A C henv.inside hcls henv.named c he hc)
          hcode.left hcode.right.head hm).bind ?_
        rintro p s₁ m₁ ⟨hat, hk⟩
        cases p with
        | false => exact .pure ⟨hat, hk⟩
        | true =>
          obtain ⟨_, hgrows, _⟩ := hb.grows W hcls henv.enter
          refine (branch_realized hgrows hat (stmt_realized W A C hcls b henv.enter hb
            (by simpa using hcb) hcode.right.tail (by simpa using hat))).mono
            fun f s' m' h => h.trans hk
  | .ifElse c b o span, env, env', ip, code, s, m, henv, hst, hc, hcode, hm => by
    cases hst with
    | ifElse he hb ho =>
      cases hc with
      | @ifElse _ _ _ _ _ _ test code code' hc hcb hco =>
        have hlen : ip + (test ++ .jumpIfFalse (ip + test.length + 1 + code.length + 1) :: code ++
            .jump (ip + test.length + 1 + code.length + 1 + code'.length) :: code').length =
            ip + test.length + 1 + code.length + 1 + code'.length := by
          simp
          omega
        have hjump := hcode.right
        have hbehind : ip + (test ++ .jumpIfFalse (ip + test.length + 1 + code.length + 1) ::
            code).length = ip + test.length + 1 + code.length := by
          simp
          omega
        rw [hbehind] at hjump
        rw [hlen]
        refine (condition_realized W (expr_realized W A C henv.inside hcls henv.named c he hc)
          hcode.left.left hcode.left.right.head hm).bind ?_
        rintro p s₁ m₁ ⟨hat, hk⟩
        cases p with
        | false =>
          obtain ⟨_, hgrows, _⟩ := ho.grows W hcls henv.enter
          refine (branch_realized hgrows hat (stmt_realized W A C hcls o henv.enter ho
            (by simpa using hco) hjump.tail (by simpa using hat))).mono
            fun f s' m' h => h.trans hk
        | true =>
          obtain ⟨_, hgrows, _⟩ := hb.grows W hcls henv.enter
          refine (branch_realized hgrows hat (stmt_realized W A C hcls b henv.enter hb
            (by simpa using hcb) hcode.left.right.tail (by simpa using hat))).follow ?_
          intro f s' m' h
          cases f with
          | returned v => exact ⟨0, m', .refl, h.machine, hk.trans h.keeps, h.typed⟩
          | next =>
            -- The branch ends with a jump over the other one.
            obtain ⟨⟨L, h, rfl, hK⟩, hk'⟩ := h
            exact ⟨1, _, .one hK.heapTyped (step_jump hjump.head), ⟨L, h, rfl, hK⟩, hk.trans hk'⟩
  | .while c b span, env, env', ip, code, s, m, henv, hst, hc, hcode, hm => by
    cases hst with
    | «while» he hb =>
      cases hc with
      | @«while» _ _ _ _ _ test code hc hcb =>
        have hlen : ip + (test ++ Instr.jumpIfFalse (ip + test.length + 1 + code.length + 1) :: code ++
            [Instr.jump ip]).length = ip + test.length + 1 + code.length + 1 := by
          simp
          omega
        have hbehind : ip + (test ++ .jumpIfFalse (ip + test.length + 1 + code.length + 1) ::
            code).length = ip + test.length + 1 + code.length := by
          simp
          omega
        have hback := hcode.right
        rw [hbehind] at hback
        rw [hlen]
        obtain ⟨_, hgrows, _⟩ := hb.grows W hcls henv.enter
        exact loop_realized
          (fun s m hm => condition_realized W (expr_realized W A C henv.inside hcls henv.named c he hc)
            hcode.left.left hcode.left.right.head hm)
          (fun s m hm => branch_realized hgrows hm (stmt_realized W A C hcls b henv.enter hb
            (by simpa using hcb) hcode.left.right.tail (by simpa using hm)))
          hback.head (Nat.le_refl n) hm
  | .block sts span, env, env', ip, code, s, m, henv, hst, hc, hcode, hm => by
    cases hst with
    | block hsts =>
      cases hc with
      | block hc =>
        exact branch_realized (hsts.grows W hcls henv.enter) hm
          (stmts_realized W A C hcls sts henv.enter hsts (by simpa using hc) hcode (by simpa using hm))
  | .expression e span, env, env', ip, code, s, m, henv, hst, hc, hcode, hm => by
    cases hst with
    | expression he =>
      cases hc with
      | expression hc =>
        rw [length_snoc]
        refine (expr_realized W A C henv.inside hcls henv.named e he hc hcode.left hm).bind ?_
        intro v s₁ m₁ hp
        obtain ⟨L, h, rfl, hK⟩ := hp.reached
        exact .step hK.heapTyped (step_pop hcode.right.head) (.pure ⟨⟨L, h, rfl, hK⟩, hp.keeps⟩)

/-- The code of well-typed statements does what their evaluation does. -/
theorem stmts_realized (W : WellTyped a) (A : Assembled a image) (C : CallsRealized a image n call)
    (hcls : K.owner < a.classes.size) :
    ∀ (sts : List (Stmt Typing)) {env env' : Environment} {ip : Nat} {code : List Instr}
      {s : EvalState} {m : Machine}, env.Proper a.classes K.owner ρ → StmtsTyped env sts env' →
      EmitsStmts image.pools a.classes K.room (LocalsRel.names env.visible) ip sts code →
      CodeAt K.code ip code → K.At a.classes env.visible ip [] s m →
      Realizes image (HeapTyped a) n (Evaluate.stmts a.classes call K.owner K.this n sts s) m
        (K.After a.classes env'.visible (ip + code.length) ρ s)
  | [], env, env', ip, code, s, m, henv, hsts, hc, hcode, hm => by
    cases hsts
    cases hc
    exact .pure ⟨hm, .refl⟩
  | st :: sts, env, env', ip, code, s, m, henv, hsts, hc, hcode, hm => by
    cases hsts with
    | cons hst hsts =>
      cases hc with
      | cons hc hcs =>
        obtain ⟨henv₁, _, hnames⟩ := hst.grows W hcls henv
        rw [List.length_append, ← Nat.add_assoc]
        refine (stmt_realized W A C hcls st henv hst hc hcode.left hm).bind ?_
        intro f s₁ m₁ hafter
        cases f with
        | returned v => exact .pure hafter
        | next =>
          refine (stmts_realized W A C hcls sts henv₁ hsts (hnames ▸ hcs) hcode.right hafter.1).mono
            fun f s' m' h => h.trans hafter.2

end

end

end ClassLang
