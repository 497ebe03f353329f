import ClassLang.Proofs.Bounds
import ClassLang.Proofs.Lowerable
import ClassLang.Proofs.Scoping
import Mathlib.Data.List.Infix

/-!
# Slots of variables

The check and the lowering keep scopes of their own. They agree about what a name stands for: the loads
and stores in the code of a tree are, one after the other, those of the variables that the text tells
(`expr_serves`, `stmt_serves`), their slots are the ones given out for them while the chunk is built
(`Lower.start_allocates`, `Lower.stmt_allocates`), and the check finds the bindings of these variables.
Variables in scope at one place have different slots, and the chunk has them all (`Lower.slots_agree`).
-/

namespace ClassLang

open Check Check.ScopingLemmas Lower.LowerableLemmas

/-- The instruction that needs a slot: the one of the receiver, or that of a variable. -/
def SlotUse.instr? : SlotUse (Option Variable) → Option Instr
  | .receiver => some (.load 0)
  | .read v => v.map fun v => .load v.slot
  | .write v => v.map fun v => .store v.slot

/-- The loads and stores of code are those of uses, one after the other. -/
def Serves (uses : List (SlotUse (Option Variable))) (code : List Instr) : Prop :=
  (code.filter (·.slot?.isSome)).map some = uses.map (·.instr?)

/-- The slots that the initializer of a field needs. -/
def FieldDecl.uses {ν : Type} (d : FieldDecl ν) : List (SlotUse (Option Variable)) :=
  match d.initializer with
  | none => []
  | some e => .receiver :: resolveUses [] e.uses

/-- The slots that the initialization of instances needs, which begins and ends with the receiver. -/
def ClassDecl.initializerUses {ν : Type} (d : ClassDecl ν) : List (SlotUse (Option Variable)) :=
  .receiver :: d.fields.flatMap (·.uses) ++ [.receiver]

/-- The slots that a method needs. -/
def MethodDecl.uses {ν : Type} (d : MethodDecl ν) : List (SlotUse (Option Variable)) :=
  d.body.uses (Variable.ofParams d.params) []

/-- The slots that the call of the parent's constructor needs. -/
def ConstructorDecl.baseUses {ν : Type} (d : ConstructorDecl ν) : List (SlotUse (Option Variable)) :=
  .receiver :: resolveUses (Variable.ofParams d.params) (Expr.usesList (d.baseArguments.getD []))

/-- The slots that a constructor needs. -/
def ConstructorDecl.uses {ν : Type} (d : ConstructorDecl ν) : List (SlotUse (Option Variable)) :=
  d.baseUses ++ d.body.uses (Variable.ofParams d.params) []

namespace AllocationLemmas

variable {uses uses' : List (SlotUse (Option Variable))} {code code' : List Instr}
  {scope : List Variable}

theorem serves_append (h : Serves uses code) (h' : Serves uses' code') :
    Serves (uses ++ uses') (code ++ code') := by
  unfold Serves at *
  rw [List.filter_append, List.map_append, List.map_append, h, h']

/-- Code without loads and stores. -/
theorem serves_nil (h : ∀ i ∈ code, i.slot? = none) : Serves [] code := by
  have hnone : code.filter (·.slot?.isSome) = [] :=
    List.filter_eq_nil_iff.mpr fun i hi => by simp [h i hi]
  rw [Serves, hnone]
  rfl

theorem serves_silent (h : Serves uses code) (h' : ∀ i ∈ code', i.slot? = none) :
    Serves uses (code ++ code') := by
  simpa using serves_append h (serves_nil h')

theorem serves_cons {i : Instr} (hi : i.slot? = none) (h : Serves uses code) :
    Serves uses (i :: code) := by
  have hnone : Serves [] [i] := serves_nil (List.forall_mem_singleton.mpr hi)
  exact serves_append hnone h

/-- One more instruction that is no load or store. -/
theorem serves_snoc {i : Instr} (h : Serves uses code) (hi : i.slot? = none) :
    Serves uses (code ++ [i]) :=
  serves_silent h (List.forall_mem_singleton.mpr hi)

theorem serves_receiver (h : Serves uses code) : Serves (.receiver :: uses) (.load 0 :: code) :=
  congrArg (some (Instr.load 0) :: ·) h

/-- Every use has its load or store. -/
theorem exists_instr (h : Serves uses code) {use : SlotUse (Option Variable)} (hu : use ∈ uses) :
    ∃ i ∈ code, use.instr? = some i := by
  have hmem : use.instr? ∈ (code.filter (·.slot?.isSome)).map some := by
    rw [h]
    exact List.mem_map_of_mem hu
  obtain ⟨i, hi, heq⟩ := List.mem_map.mp hmem
  exact ⟨i, List.mem_of_mem_filter hi, heq.symm⟩

theorem resolveUses_append (us vs : List (SlotUse String)) :
    resolveUses scope (us ++ vs) = resolveUses scope us ++ resolveUses scope vs :=
  List.map_append

/-- Where slots are in order, that of a name is that of the latest variable of the name. -/
theorem lookup_scope (h : SlotsInOrder scope) {x : String} {i : Nat}
    (hi : (slotsOf (scope.map (·.name))).lookup x = some i) :
    ∃ v, scope.find? (·.name == x) = some v ∧ v.slot = i := by
  induction scope with
  | nil => cases hi
  | cons v scope ih =>
    obtain ⟨hslot, h⟩ := slotsInOrder_cons.mp h
    rw [List.map_cons, slotsOf, List.lookup_cons] at hi
    by_cases hx : x = v.name
    · subst hx
      simp only [beq_self_eq_true, List.length_map, Option.some.injEq] at hi
      exact ⟨v, List.find?_cons_of_pos (by simp), hslot.trans hi⟩
    · rw [beq_eq_false_iff_ne.mpr hx] at hi
      obtain ⟨w, hw, rfl⟩ := ih h hi
      exact ⟨w, by rw [List.find?_cons_of_neg (by simpa using Ne.symm hx), hw], rfl⟩

theorem visible_scope (s : Stmt Typing) (path : List Nat) :
    (s.scopeBehind scope path).map (·.name) = s.visible (scope.map (·.name)) := by
  cases s <;> rfl

theorem params_names (params : List Param) :
    (Variable.ofParams params).map (·.name) = paramNames params := by
  have hnames : params.zipIdx.map (·.1.name.name) = params.map (·.name.name) :=
    List.ext_getElem (by simp) (by simp)
  simp [Variable.ofParams, paramNames, Function.comp_def, hnames]

end AllocationLemmas

open AllocationLemmas

section

variable {q : Pools} {t : ClassTable} {scope : List Variable}

mutual

/-- The code of an expression loads and stores the slots of the variables that its names stand for. -/
theorem expr_serves (h : SlotsInOrder scope) : ∀ {e : Expr Typing} {code : List Instr},
    Emits q t (scope.map (·.name)) e code → Serves (resolveUses scope e.uses) code
  | .number x n, code, hc => by
    cases hc with
    | number hi => cases hi <;> rfl
  | .string c n, code, hc => by
    cases hc
    rfl
  | .boolean b n, code, hc => by
    cases hc
    cases b <;> rfl
  | .null n, code, hc => by
    cases hc
    rfl
  | .name x n, code, hc => by
    cases hc with
    | name hi =>
      obtain ⟨v, hv, rfl⟩ := lookup_scope h hi
      simp [Serves, Expr.uses, resolveUses, SlotUse.map, SlotUse.instr?, Instr.slot?, hv]
  | .this n, code, hc => by
    cases hc
    rfl
  | .base n, code, hc => by
    cases hc
    rfl
  | .member e x n, code, hc => by
    cases hc with
    | member hc _ _ =>
      rw [Expr.uses]
      exact serves_snoc (expr_serves h hc) rfl
  | .call e es n', code, hc => by
    cases e with
    | member o x n =>
      cases hc with
      | call hc _ _ _ hcs =>
        rw [Expr.uses, Expr.uses, resolveUses_append]
        refine serves_snoc (serves_append (expr_serves h hc) (exprs_serves h hcs)) ?_
        unfold Lower.call
        split <;> rfl
    | _ => cases hc
  | .new c es n, code, hc => by
    cases hc with
    | new _ _ _ hcs =>
      exact serves_silent (serves_cons rfl (serves_cons rfl (exprs_serves h hcs)))
        (List.forall_mem_cons.mpr ⟨rfl, List.forall_mem_singleton.mpr rfl⟩)
  | .assign e v n', code, hc => by
    cases e with
    | name x n =>
      cases hc with
      | assignName hi hc =>
        obtain ⟨w, hw, rfl⟩ := lookup_scope h hi
        rw [Expr.uses, resolveUses_append]
        refine serves_append (expr_serves h hc) ?_
        simp [Serves, resolveUses, SlotUse.map, SlotUse.instr?, Instr.slot?, hw]
    | member o x n =>
      cases hc with
      | assignMember hc _ _ hc' =>
        have huses : (Expr.assign (.member o x n) v n').uses = o.uses ++ v.uses := rfl
        rw [huses, resolveUses_append]
        exact serves_snoc (serves_append (expr_serves h hc) (expr_serves h hc')) rfl
    | _ => cases hc
  | .binary op l r n, code, hc => by
    rw [Expr.uses, resolveUses_append]
    cases hc with
    | primitive hc hc' =>
      exact serves_snoc (serves_append (expr_serves h hc) (expr_serves h hc')) rfl
    | binary hc hc' =>
      refine serves_snoc (serves_append (expr_serves h hc) (expr_serves h hc')) ?_
      split <;> rfl
  | .unary op e n, code, hc => by
    cases hc with
    | unaryPrimitive hc | unary hc =>
      rw [Expr.uses]
      exact serves_snoc (expr_serves h hc) rfl
  | .assert e n, code, hc => by
    cases hc with
    | assert hc =>
      rw [Expr.uses]
      exact serves_snoc (expr_serves h hc) rfl
  | .instanceTest e w n, code, hc => by
    cases hc with
    | nullTest hc | instanceTest hc =>
      rw [Expr.uses]
      exact serves_snoc (expr_serves h hc) rfl
  | .cast e w n, code, hc => by
    cases hc with
    | cast hc =>
      rw [Expr.uses]
      exact serves_snoc (expr_serves h hc) rfl

theorem exprs_serves (h : SlotsInOrder scope) : ∀ {es : List (Expr Typing)} {codes : List (List Instr)},
    List.Forall₂ (Emits q t (scope.map (·.name))) es codes →
    Serves (resolveUses scope (Expr.usesList es)) codes.flatten
  | [], codes, hcs => by
    cases hcs
    rfl
  | e :: es, codes, hcs => by
    cases hcs with
    | cons hc hcs =>
      rw [Expr.usesList, resolveUses_append, List.flatten_cons]
      exact serves_append (expr_serves h hc) (exprs_serves h hcs)

end

variable {room : Nat}

mutual

/-- The code of a statement loads and stores the slots of the variables that the names in it stand for
where they occur. -/
theorem stmt_serves : ∀ {s : Stmt Typing} {scope : List Variable} {path : List Nat} {start : Nat}
    {code : List Instr}, SlotsInOrder scope →
    EmitsStmt q t room (scope.map (·.name)) start s code → Serves (s.uses scope path) code
  | .define x w e sp, scope, path, start, code, h, hc => by
    cases hc with
    | define hc _ =>
      refine serves_append (expr_serves h hc) ?_
      simp [Serves, SlotUse.instr?, Instr.slot?]
  | .return v sp, scope, path, start, code, h, hc => by
    cases hc with
    | «return» hc =>
      rw [Stmt.uses, Option.toList_some, Expr.usesList, Expr.usesList, List.append_nil]
      exact serves_snoc (expr_serves h hc) rfl
    | returnNone => rfl
  | .ifThen c b sp, scope, path, start, code, h, hc => by
    cases hc with
    | ifThen hc hb =>
      exact serves_append (expr_serves h hc) (serves_cons rfl (stmt_serves h hb))
  | .ifElse c b o sp, scope, path, start, code, h, hc => by
    cases hc with
    | ifElse hc hb ho =>
      exact serves_append (serves_append (expr_serves h hc) (serves_cons rfl (stmt_serves h hb)))
        (serves_cons rfl (stmt_serves h ho))
  | .while c b sp, scope, path, start, code, h, hc => by
    cases hc with
    | «while» hc hb =>
      exact serves_snoc (serves_append (expr_serves h hc) (serves_cons rfl (stmt_serves h hb))) rfl
  | .block ss sp, scope, path, start, code, h, hc => by
    cases hc with
    | block hcs => exact stmts_serves h hcs
  | .expression e sp, scope, path, start, code, h, hc => by
    cases hc with
    | expression hc => exact serves_snoc (expr_serves h hc) rfl

theorem stmts_serves : ∀ {ss : List (Stmt Typing)} {scope : List Variable} {path : List Nat}
    {n start : Nat} {code : List Instr}, SlotsInOrder scope →
    EmitsStmts q t room (scope.map (·.name)) start ss code →
    Serves (Stmt.usesFrom scope path n ss) code
  | [], scope, path, n, start, code, h, hc => by
    cases hc
    rfl
  | s :: ss, scope, path, n, start, code, h, hc => by
    cases hc with
    | cons hc hcs =>
      rw [← visible_scope s (path ++ [n])] at hcs
      exact serves_append (stmt_serves h hc) (stmts_serves (slotsInOrder_behind h _ s) hcs)

end

/-! ## Slots under construction -/

theorem slotsOf_scope (h : SlotsInOrder scope) :
    slotsOf (scope.map (·.name)) = scope.map fun v => (v.name, v.slot) := by
  induction scope with
  | nil => rfl
  | cons v scope ih =>
    obtain ⟨hslot, h⟩ := slotsInOrder_cons.mp h
    rw [List.map_cons, List.map_cons, slotsOf, List.length_map, hslot, ih h]

/-- A chunk that is begun for parameters has given out the slots of these variables. -/
theorem Lower.start_allocates {params : List Param} {b : ChunkBuilder}
    (h : ChunkBuilder.start (params.map (·.name.name)) = .ok b) :
    (b.slots.current :: b.slots.outer).flatMap (·.names) =
      (Variable.ofParams params).map fun v => (v.name, v.slot) := by
  obtain ⟨_, _, hnum, _⟩ := Lower.AssembledLemmas.start_ok h
  rw [hnum.flat, ← params_names, slotsOf_scope (slotsInOrder_params params)]

/-- If the slots that are given out are those of the variables in scope, they are so behind a statement
as well: a `let` gets the slot of its variable, and scopes that are closed give theirs back. -/
theorem Lower.stmt_allocates {σ σ' : Slots} {start : Nat} {s : Stmt Typing} {p p' : Pools}
    {code : List Instr} (h : SlotsInOrder scope) (hσ : Numbered σ (scope.map (·.name)))
    (hs : Gives (Lower.stmt t σ start s) p (code, σ') p') (path : List Nat) :
    (σ'.current :: σ'.outer).flatMap (·.names) =
      (s.scopeBehind scope path).map fun v => (v.name, v.slot) := by
  rw [(stmt_emits hσ hs Pools.Le.refl).numbered.flat, ← visible_scope s path,
    slotsOf_scope (slotsInOrder_behind h path s)]

/-! ## Chunks -/

theorem chunk_serves {params : List Param} {before : List Instr} {body : Stmt Typing} {chunk : Chunk}
    {uses : List (SlotUse (Option Variable))} (hc : EmitsChunk q t params before (some body) chunk)
    (hbefore : Serves uses before) :
    Serves (uses ++ body.uses (Variable.ofParams params) []) chunk.code.toList := by
  obtain ⟨code, hcode, hbody⟩ := hc.code
  rw [← params_names] at hbody
  rw [hcode]
  exact serves_silent (serves_append hbefore (stmt_serves (slotsInOrder_params params) hbody))
    (List.forall_mem_cons.mpr ⟨rfl, List.forall_mem_singleton.mpr rfl⟩)

theorem baseCall_serves {parent : Nat} {es : List (Expr Typing)} {code : List Instr}
    (h : SlotsInOrder scope) (hc : EmitsBaseCall q t parent (scope.map (·.name)) es code) :
    Serves (.receiver :: resolveUses scope (Expr.usesList es)) code := by
  cases hc with
  | call hcs _ =>
    exact serves_silent (serves_receiver (exprs_serves h hcs))
      (List.forall_mem_cons.mpr ⟨rfl, List.forall_mem_singleton.mpr rfl⟩)

theorem field_serves {id : TypeId} {d : FieldDecl Typing} {code : List Instr}
    (hc : EmitsField q t id d code) : Serves d.uses code := by
  cases hc with
  | blank hnone =>
    rw [FieldDecl.uses, hnone]
    rfl
  | initial hsome _ hc =>
    have hnames : SlotsInOrder [] := rfl
    rw [FieldDecl.uses, hsome]
    exact serves_silent (serves_receiver (expr_serves hnames hc))
      (List.forall_mem_cons.mpr ⟨rfl, List.forall_mem_singleton.mpr rfl⟩)

theorem fields_serve {id : TypeId} {ds : List (FieldDecl Typing)} {codes : List (List Instr)}
    (hcs : List.Forall₂ (EmitsField q t id) ds codes) : Serves (ds.flatMap (·.uses)) codes.flatten := by
  induction hcs with
  | nil => rfl
  | cons hc _ ih =>
    rw [List.flatMap_cons, List.flatten_cons]
    exact serves_append (field_serves hc) ih

end

/-! ## Bodies -/

/-- The check and the lowering of a body agree about its variables. The expressions `first` are evaluated
in front of the body; `uses` are the slots that all of this needs according to the text. -/
structure SlotsAgree (env : Environment) (params : List Param) (types : List Ty)
    (first : List (Expr Span)) (body : Stmt Span) (uses : List (SlotUse (Option Variable)))
    (chunk : Chunk) : Prop where
  arguments : chunk.arguments = params.length + 1
  /-- The check sees the bindings of the variables in scope and no others. -/
  bindings : ∀ path Q s, (bodyPlace env params).follow body path = some (Q, s) →
    List.Forall₂ (Binds env params types body) Q.scope Q.env.visible
  /-- A name needs the slot of the variable whose binding the check finds. -/
  resolved : ∀ path Q s, (bodyPlace env params).follow body path = some (Q, s) → ∀ e ∈ s.operands,
    resolveUses Q.scope e.uses <:+: uses ∧
      ∀ x ∈ e.names, ∃ k v b, Q.Resolves (Binds env params types body) x k v b
  firstResolved : ∀ e ∈ first, resolveUses (Variable.ofParams params) e.uses <:+: uses ∧
    ∀ x ∈ e.names, ∃ k v b, (bodyPlace env params).Resolves (Binds env params types body) x k v b
  /-- A `let` needs the slot of its own variable. -/
  written : ∀ path Q x w e s, (bodyPlace env params).follow body path = some (Q, .define x w e s) →
    .write (some ⟨.letAt path, x.name, Q.scope.length + 1⟩) ∈ uses
  /-- Variables in scope at once have slots of their own, and none has the slot of the receiver. -/
  apart : ∀ path Q s, (bodyPlace env params).follow body path = some (Q, s) →
    ((s.scopeBehind Q.scope path).map (·.slot)).Nodup ∧
      ∀ v ∈ s.scopeBehind Q.scope path, 0 < v.slot ∧ v.slot < chunk.locals
  code : Serves uses chunk.code.toList
  bounded : ∀ i ∈ chunk.code.toList, ∀ k, i.slot? = some k → k < chunk.locals

namespace AllocationLemmas

theorem slot_lt {image : Image} {chunk : Chunk} (h : image.Supports chunk) :
    ∀ i ∈ chunk.code.toList, ∀ k, i.slot? = some k → k < chunk.locals := by
  intro i hi k hk
  have hbounds := h.code i hi
  cases i with
  | load s | store s =>
    cases hk
    exact hbounds
  | _ => cases hk

/-- What an operand needs is a part of what its statement needs. -/
theorem operand_uses {ν : Type} {scope : List Variable} {path : List Nat} {s : Stmt ν} {e : Expr ν}
    (he : e ∈ s.operands) : resolveUses scope e.uses <:+: s.uses scope path := by
  have hfirst {uses rest : List (SlotUse (Option Variable))} : uses <:+: uses ++ rest :=
    (List.prefix_append _ _).isInfix
  cases s with
  | define x w v sp | ifThen v b sp | «while» v b sp =>
    obtain rfl := List.mem_singleton.mp he
    exact hfirst
  | ifElse v b c sp =>
    obtain rfl := List.mem_singleton.mp he
    exact List.infix_append_of_infix_left hfirst
  | expression v sp =>
    obtain rfl := List.mem_singleton.mp he
    exact List.infix_refl _
  | «return» v sp =>
    obtain rfl := Option.mem_toList.mp he
    rw [Stmt.uses, Option.toList_some, Expr.usesList, Expr.usesList, List.append_nil]
  | block ss sp => cases he

theorem list_uses {ν : Type} {scope : List Variable} {es : List (Expr ν)} {e : Expr ν} (he : e ∈ es) :
    resolveUses scope e.uses <:+: resolveUses scope (Expr.usesList es) := by
  induction es with
  | nil => cases he
  | cons e' es ih =>
    rw [Expr.usesList, resolveUses_append]
    rcases List.mem_cons.mp he with rfl | he
    · exact (List.prefix_append _ _).isInfix
    · exact List.infix_append_of_infix_right (ih he)

/-- Slots in order are different ones, and none is that of the receiver. -/
theorem slots_apart {scope : List Variable} (h : SlotsInOrder scope) :
    (scope.map (·.slot)).Nodup ∧ ∀ v ∈ scope, 0 < v.slot := by
  refine ⟨h ▸ List.nodup_reverse.mpr List.nodup_range', fun v hv => ?_⟩
  have hmem : v.slot ∈ (List.range' 1 scope.length).reverse := h ▸ List.mem_map_of_mem hv
  simp only [List.mem_reverse, List.mem_range'_1] at hmem
  exact hmem.1

end AllocationLemmas

/-- A body and its chunk, which has some code in front. -/
theorem body_agrees {image : Image} {q : Pools} {t : ClassTable} {id : TypeId} {result : Ty}
    {env : Environment} {params : List Param} {types : List Ty} {first : List (Expr Span)}
    {body : Stmt Span} {before : List Instr} {uses : List (SlotUse (Option Variable))} {chunk : Chunk}
    (hbound : ParamsBound t id result params types env) (hlen : types.length = params.length)
    (herrors : (stmt env body).errors = [])
    (hfirst : ∀ e ∈ first, ∃ τ e', infer env e = .ok (τ, e'))
    (hpart : ∀ e ∈ first, resolveUses (Variable.ofParams params) e.uses <:+: uses)
    (hchunk : EmitsChunk q t params before (some (stmt env body).value) chunk)
    (hbefore : Serves uses before) (hsupports : image.Supports chunk) :
    SlotsAgree env params types first body (uses ++ body.uses (Variable.ofParams params) []) chunk := by
  have hparams : List.Forall₂ (Binds env params types body) (Variable.ofParams params) env.visible :=
    params_seen hbound hlen
  have hcode : Serves (uses ++ body.uses (Variable.ofParams params) []) chunk.code.toList := by
    rw [← stmt_uses herrors]
    exact chunk_serves hchunk hbefore
  have hbounded := slot_lt hsupports
  have hplace {path : List Nat} {Q : Place} {s : Stmt Span}
      (h : (bodyPlace env params).follow body path = some (Q, s)) :
      s.uses Q.scope path <:+: uses ++ body.uses (Variable.ofParams params) [] := by
    have hpath : Q.path = path := Place.follow_path h
    exact List.infix_append_of_infix_right (hpath ▸ Place.follow_uses h)
  have hwritten : ∀ path Q x w e s,
      (bodyPlace env params).follow body path = some (Q, .define x w e s) →
      .write (some ⟨.letAt path, x.name, Q.scope.length + 1⟩) ∈
        uses ++ body.uses (Variable.ofParams params) [] :=
    fun path Q x w e s h => (hplace h).subset (by simp [Stmt.uses])
  have hlet {path : List Nat} {Q : Place} {x : Ident} {w : Option TypeName} {e : Expr Span} {s : Span}
      (h : (bodyPlace env params).follow body path = some (Q, .define x w e s)) :
      Q.scope.length + 1 < chunk.locals := by
    obtain ⟨i, hi, hinstr⟩ := exists_instr hcode (hwritten _ _ _ _ _ _ h)
    cases hinstr
    exact hbounded _ hi _ rfl
  have hlt : ∀ v b, Binds env params types body v b → v.slot < chunk.locals := by
    rintro _ _ (⟨hp, _⟩ | ⟨h, _⟩)
    · have hk := (List.getElem?_eq_some_iff.mp hp).1
      exact Nat.lt_of_lt_of_le (Nat.succ_lt_succ hk) hchunk.room
    · exact hlet h
  refine ⟨hchunk.arguments, fun path Q s h => ?_, fun path Q s h e he => ⟨?_, fun x hx => ?_⟩,
    fun e he => ⟨List.infix_append_of_infix_left (hpart e he), fun x hx => ?_⟩, hwritten,
    fun path Q s h => ?_, hcode, hbounded⟩
  · exact (Place.follow_sees hparams herrors h).bindings
  · exact (operand_uses he).trans (hplace h)
  · exact Place.names_resolved (Place.follow_sees hparams herrors h) he hx
  · obtain ⟨τ, e', he'⟩ := hfirst e he
    exact resolved (P := bodyPlace env params) hparams (infer_names_bound he' hx)
  · have hsees := Place.follow_sees hparams herrors h
    obtain ⟨hnodup, hpos⟩ := slots_apart (slotsInOrder_behind hsees.slots path s)
    refine ⟨hnodup, fun v hv => ⟨hpos v hv, ?_⟩⟩
    have hscope : ∀ v ∈ Q.scope, v.slot < chunk.locals := fun v hv => by
      obtain ⟨k, hk, rfl⟩ := List.mem_iff_getElem.mp hv
      exact hlt _ _ (hsees.bindings.get hk (hsees.bindings.length_eq ▸ hk))
    cases s with
    | define x w e sp =>
      rcases List.mem_cons.mp hv with rfl | hv
      · exact hlet h
      · exact hscope v hv
    | _ => exact hscope v hv

/-! ## Members -/

namespace Check

variable {t : ClassTable} {id : TypeId}

/-- The check of a member of a program without errors finds none. -/
theorem program_members {p : Program Span} {a : Analysis} (h : program p = .ok a) {i : Nat}
    {d : ClassDecl Span} (hd : p.classes[i]? = some d) :
    ∀ m ∈ d.members, (member a.classes (TypeId.first + i) m).2 = [] := by
  obtain ⟨hbuild, entered, t, hlist, rfl, hchecked⟩ := program_ok h
  obtain ⟨rfl, _⟩ := entered_ok hbuild hlist
  have hi : i < p.classes.length := (List.getElem?_eq_some_iff.mp hd).1
  have hget : ((List.range' TypeId.first p.classes.length).zip p.classes)[i]? =
      some (TypeId.first + i, d) :=
    List.getElem?_zip_eq_some.mpr ⟨by simp [hi], hd⟩
  have hclass := hchecked _ (List.mem_map_of_mem (List.mem_of_getElem? hget))
  simp only [classDecl_eq, List.append_eq_nil_iff, List.flatMap_eq_nil_iff, List.mem_map] at hclass
  exact fun m hm => hclass.1 _ ⟨(m, true), ⟨m, hm, rfl⟩, rfl⟩

/-- The body of a method without errors is checked behind its parameters. -/
theorem methodDecl_body {d : MethodDecl Span} {m : Method}
    (hm : (t.record? id).bind (·.method? d.name.key) = some m) (h : (methodDecl t id d).2 = []) :
    let bound := bindParams (t.inside id m.returns) d.params m.params
    bound.errors = [] ∧ (stmt bound.env d.body).errors = [] ∧
      (methodDecl t id d).1.body = (stmt bound.env d.body).value ∧
      (methodDecl t id d).1.params = d.params := by
  simp only [methodDecl, methodIn, Checked.report, Environment.outside_classes] at h ⊢
  simp only [hm] at h ⊢
  cases hov : overrides t id m d with
  | error e => simp [hov] at h
  | ok u =>
    simp only [hov, List.append_eq_nil_iff] at h
    exact ⟨h.1.1, h.1.2, rfl, rfl⟩

/-- The arguments of the base call of a constructor without errors and its body are checked behind its
parameters. -/
theorem constructorDecl_body {d : ConstructorDecl Span} {m : Method} {parent : Nat}
    (hm : t.constructor? id = some m) (hp : t.parent? id = some parent)
    (h : (constructorDecl t id d).2 = []) :
    let bound := bindParams (t.inside id .unit) d.params m.params
    bound.errors = [] ∧ (stmt bound.env d.body).errors = [] ∧
      (constructorDecl t id d).1.body = (stmt bound.env d.body).value ∧
      (constructorDecl t id d).1.params = d.params ∧
      Expr.usesList ((constructorDecl t id d).1.baseArguments.getD []) =
        Expr.usesList (d.baseArguments.getD []) ∧
      ∀ e ∈ d.baseArguments.getD [], ∃ τ e', infer bound.env e = .ok (τ, e') := by
  simp only [constructorDecl, constructorIn, Checked.report, Environment.outside_classes] at h ⊢
  simp only [hm, List.append_eq_nil_iff] at h ⊢
  obtain ⟨⟨hparams, hbase⟩, hbody⟩ := h
  obtain ⟨es', hes⟩ := errorsOf_eq_nil hbase
  have hclasses : (bindParams ((Environment.outside t).beginMember id .unit) d.params
      m.params).env.classes = t := (params_bound hparams).inside.classes
  have hcall := hes
  simp only [baseCall, hclasses, hp] at hcall
  split at hcall
  · cases hcall
  simp only [bind_eq_ok, TypedLemmas.argumentCount_ok] at hcall
  obtain ⟨_, _, _, hcount, hargs⟩ := hcall
  refine ⟨hparams, hbody, rfl, trivial, ?_, inferArguments_inferred hcount hargs⟩
  have huses := inferArguments_uses hcount hargs
  simp only [hes]
  cases hd : d.baseArguments with
  | some es => simpa [hd] using huses
  | none => rfl

/-- No name is visible to the initializer of a field. -/
theorem fieldDecl_uses {d : FieldDecl Span} {f : Field}
    (hf : (t.record? id).bind (·.field? d.name.name) = some f) (h : (fieldDecl t id d).2 = []) :
    (fieldDecl t id d).1.uses = d.uses ∧ ∀ e ∈ d.initializer, e.names = [] := by
  simp only [fieldDecl, fieldIn, Checked.report, Environment.outside_classes] at h ⊢
  simp only [hf] at h ⊢
  cases hd : d.initializer with
  | none => simp [FieldDecl.uses, hd]
  | some e =>
    simp only [hd] at h ⊢
    cases he : infer ((Environment.outside t).beginMember id .unit) e with
    | error e' => simp [he] at h
    | ok found =>
      simp only [FieldDecl.uses, hd, infer_uses he, true_and]
      intro e' he'
      cases he'
      refine List.eq_nil_iff_forall_not_mem.mpr fun x hx => ?_
      obtain ⟨υ, hυ⟩ := infer_names_bound he hx
      cases hυ

/-- A class whose members are checked. -/
def annotated (t : ClassTable) (id : TypeId) (d : ClassDecl Span) : ClassDecl Typing :=
  ⟨d.name, d.parent, d.members.map fun m => (member t id m).1, d.span⟩

theorem classDecl_annotated (d : ClassDecl Span) (isImplicit : Bool) :
    (classDecl t ⟨id, d, d.members.map (·, true), isImplicit⟩).1 = annotated t id d := by
  simp only [classDecl_eq, checked_members, annotated]

theorem annotated_methods (d : ClassDecl Span) :
    (annotated t id d).methods = d.methods.map fun m => (methodDecl t id m).1 := by
  simp only [ClassDecl.methods, annotated]
  rw [List.filterMap_map, List.map_filterMap]
  refine List.filterMap_congr fun m _ => ?_
  cases m <;> rfl

theorem annotated_fields (d : ClassDecl Span) :
    (annotated t id d).fields = d.fields.map fun f => (fieldDecl t id f).1 := by
  simp only [ClassDecl.fields, annotated]
  rw [List.filterMap_map, List.map_filterMap]
  refine List.filterMap_congr fun m _ => ?_
  cases m <;> rfl

end Check

/-! ## Programs -/

/-- A construct has the chunk under a key. -/
def Image.ChunkUnder (image : Image) (c : Construct) (key : MemberKey) (chunk : Chunk) : Prop :=
  ∃ m : Nat, image.members[m]? = some key ∧ c.bodies.find? m = some (.compiled chunk)

/-- The check and the lowering of the members of a class agree about variables. -/
structure ClassSlotsAgree (t : ClassTable) (image : Image) (id : TypeId) (d : ClassDecl Span)
    (c : Construct) : Prop where
  methods : ∀ md ∈ d.methods, ∃ m chunk,
    (t.record? id).bind (·.method? md.name.key) = some m ∧ image.ChunkUnder c md.name.key chunk ∧
    SlotsAgree (bindParams (t.inside id m.returns) md.params m.params).env md.params m.params []
      md.body md.uses chunk
  constructors : ∀ cd ∈ d.constructors, ∃ m chunk,
    t.constructor? id = some m ∧ image.ChunkUnder c .constructor chunk ∧
    SlotsAgree (bindParams (t.inside id .unit) cd.params m.params).env cd.params m.params
      (cd.baseArguments.getD []) cd.body cd.uses chunk
  /-- Without a constructor, and in the initializer, there are no names. -/
  implicitConstructor : d.constructors = [] → ∃ chunk, image.ChunkUnder c .constructor chunk ∧
    Serves [.receiver] chunk.code.toList ∧
    ∀ i ∈ chunk.code.toList, ∀ k, i.slot? = some k → k < chunk.locals
  initializer : ∃ chunk, image.ChunkUnder c .initializer chunk ∧
    (∀ f ∈ d.fields, ∀ e ∈ f.initializer, e.names = []) ∧
    Serves d.initializerUses chunk.code.toList ∧
    ∀ i ∈ chunk.code.toList, ∀ k, i.slot? = some k → k < chunk.locals

namespace AllocationLemmas

variable {a : Analysis} {image : Image} {id p : Nat} {r : ClassRecord} {d : ClassDecl Span}
  {c : Construct}

/-- The chunk of every member of a class. -/
theorem exists_chunk {d : ClassDecl Typing} (W : WellTyped a) (A : Assembled a image)
    (ht : ClassTyped a.classes id p r d) (hc : EmitsClass image.pools a.classes id d c)
    {key : MemberKey} (hkey : d.HasBody key) :
    ∃ parent chunk, image.ChunkUnder c key chunk ∧ image.Supports chunk ∧
      Implements image.pools a.classes id parent d key (.compiled chunk) := by
  obtain ⟨p', parent, hp', hk, _, htable⟩ := hc.bodies
  obtain ⟨m, hm⟩ := htable.member key hkey
  obtain ⟨body, hbody⟩ := Option.isSome_iff_exists.mp ((htable.each m key hm).mp hkey)
  have himpl := htable.found m key body hm hbody
  obtain ⟨chunk, rfl⟩ : ∃ chunk, body = .compiled chunk := by cases himpl <;> exact ⟨_, rfl⟩
  have hparent := BoundsLemmas.construct_lt W A (W.rooted.parent_lt _ _ hp') hk
  exact ⟨parent, chunk, ⟨m, hm, hbody⟩, implements_supported W A ht hparent himpl, himpl⟩

/-- The chunk under the key of a method is that of the method. -/
theorem method_emitted {d : ClassDecl Typing} {parent : Nat} {chunk : Chunk} {md : MethodDecl Typing}
    (ht : ClassTyped a.classes id p r d) (hmd : md ∈ d.methods)
    (h : Implements image.pools a.classes id parent d md.name.key (.compiled chunk)) :
    EmitsChunk image.pools a.classes md.params [] (some md.body) chunk := by
  have hinherited := md.name.key_inherited
  generalize hkey : md.name.key = key at h hinherited
  cases h with
  | method hmd' hchunk =>
    have hfind := ht.find_method hmd
    rw [hkey, ht.find_method hmd'] at hfind
    cases hfind
    exact hchunk
  | initializer | constructor | implicitConstructor => cases hinherited

/-- The chunk under the key of constructors is that of the declared one. -/
theorem constructor_emitted {d : ClassDecl Typing} {parent : Nat} {q : Pools} {t : ClassTable}
    {chunk : Chunk} {cd : ConstructorDecl Typing} (hreg : Registered d r) (hcd : cd ∈ d.constructors)
    (h : Implements q t id parent d .constructor (.compiled chunk)) : ∃ before,
      EmitsBaseCall q t parent (paramNames cd.params) (cd.baseArguments.getD []) before ∧
      EmitsChunk q t cd.params before (some cd.body) chunk := by
  have hhead := constructors_head hreg hcd
  generalize hkey : MemberKey.constructor = key at h
  cases h with
  | initializer => cases hkey
  | @method md _ => exact absurd hkey (md.name.key_ne rfl)
  | constructor hhead' hbefore hchunk =>
    rw [hhead'] at hhead
    cases hhead
    exact ⟨_, hbefore, hchunk⟩
  | implicitConstructor hnone =>
    rw [hnone] at hhead
    cases hhead

theorem method_agrees (W : WellTyped a) (A : Assembled a image)
    (ht : ClassTyped a.classes id p r (annotated a.classes id d))
    (hc : EmitsClass image.pools a.classes id (annotated a.classes id d) c)
    {md : MethodDecl Span}
    (hmd : md ∈ d.methods) (herrors : (methodDecl a.classes id md).2 = []) : ∃ m chunk,
      (a.classes.record? id).bind (·.method? md.name.key) = some m ∧
      image.ChunkUnder c md.name.key chunk ∧
      SlotsAgree (bindParams (a.classes.inside id m.returns) md.params m.params).env md.params m.params
        [] md.body md.uses chunk := by
  have hmem : (methodDecl a.classes id md).1 ∈ (annotated a.classes id d).methods :=
    annotated_methods d ▸ List.mem_map_of_mem hmd
  have hname : (methodDecl a.classes id md).1.name = md.name := by
    simp only [methodDecl, methodIn, Checked.report, Environment.outside_classes]
    split
    · rfl
    · split <;> rfl
  obtain ⟨m, hm, hlen, _⟩ := ht.methods _ hmem
  rw [hname] at hm
  have hfound : (a.classes.record? id).bind (·.method? md.name.key) = some m := by
    rw [ht.record, Option.bind_some, hm]
  obtain ⟨hparams, hstmt, hbody, hps⟩ := methodDecl_body hfound herrors
  obtain ⟨_, chunk, hchunk, hsupports, himpl⟩ :=
    exists_chunk W A ht hc (.inr (.inr ⟨_, hmem, rfl⟩))
  have hemits := method_emitted ht hmem himpl
  rw [hbody, hps] at hemits
  rw [hps] at hlen
  rw [hname] at hchunk
  have hnothing : Serves [] [] := rfl
  exact ⟨m, chunk, hfound, hchunk, body_agrees (params_bound hparams) hlen hstmt (by simp) (by simp)
    hemits hnothing hsupports⟩

theorem constructor_agrees (W : WellTyped a) (A : Assembled a image)
    (ht : ClassTyped a.classes id p r (annotated a.classes id d))
    (hc : EmitsClass image.pools a.classes id (annotated a.classes id d) c) {cd : ConstructorDecl Span}
    (hcd : cd ∈ d.constructors) (herrors : (constructorDecl a.classes id cd).2 = []) : ∃ m chunk,
      a.classes.constructor? id = some m ∧ image.ChunkUnder c .constructor chunk ∧
      SlotsAgree (bindParams (a.classes.inside id .unit) cd.params m.params).env cd.params m.params
        (cd.baseArguments.getD []) cd.body cd.uses chunk := by
  have hmem : (constructorDecl a.classes id cd).1 ∈ (annotated a.classes id d).constructors :=
    checked_constructors d ▸ List.mem_map_of_mem hcd
  obtain ⟨m, base, hm, _, hctor⟩ := ht.constructor
  rw [constructors_head ht.registered hmem] at hctor
  have hfound : a.classes.constructor? id = some m := by
    rw [ClassTable.constructor?, ht.record, Option.bind_some, hm]
  obtain ⟨hparams, hstmt, hbody, hps, huses, hfirst⟩ := constructorDecl_body hfound ht.parent_eq herrors
  obtain ⟨parent, chunk, hchunk, hsupports, himpl⟩ := exists_chunk W A ht hc (.inr (.inl rfl))
  obtain ⟨before, hbefore, hemits⟩ := constructor_emitted ht.registered hmem himpl
  rw [hbody, hps] at hemits
  rw [hps, ← params_names] at hbefore
  have hserves : Serves cd.baseUses before := by
    rw [ConstructorDecl.baseUses, ← huses]
    exact baseCall_serves (slotsInOrder_params cd.params) hbefore
  refine ⟨m, chunk, hfound, hchunk, body_agrees (params_bound hparams) (hps ▸ hctor.1) hstmt hfirst
    (fun e he => ?_) hemits hserves hsupports⟩
  exact (list_uses he).trans (List.suffix_cons _ _).isInfix

theorem implicit_agrees (W : WellTyped a) (A : Assembled a image)
    (ht : ClassTyped a.classes id p r (annotated a.classes id d))
    (hc : EmitsClass image.pools a.classes id (annotated a.classes id d) c) (hnone : d.constructors = []) :
    ∃ chunk, image.ChunkUnder c .constructor chunk ∧ Serves [.receiver] chunk.code.toList ∧
      ∀ i ∈ chunk.code.toList, ∀ k, i.slot? = some k → k < chunk.locals := by
  obtain ⟨parent, chunk, hchunk, hsupports, himpl⟩ := exists_chunk W A ht hc (.inr (.inl rfl))
  refine ⟨chunk, hchunk, ?_, slot_lt hsupports⟩
  have hhead : (annotated a.classes id d).constructors.head? = none := by
    rw [show (annotated a.classes id d).constructors = _ from checked_constructors d, hnone]
    rfl
  generalize hkey : MemberKey.constructor = key at himpl
  cases himpl with
  | initializer => cases hkey
  | @method md _ => exact absurd hkey (md.name.key_ne rfl)
  | constructor hhead' =>
    rw [hhead'] at hhead
    cases hhead
  | implicitConstructor _ hbefore hemits =>
    obtain ⟨_, hcode, rfl⟩ := hemits.code
    have hnames : SlotsInOrder [] := rfl
    rw [hcode, List.append_nil]
    exact serves_silent (baseCall_serves hnames hbefore)
      (List.forall_mem_cons.mpr ⟨rfl, List.forall_mem_singleton.mpr rfl⟩)

theorem initializer_agrees (W : WellTyped a) (A : Assembled a image)
    (ht : ClassTyped a.classes id p r (annotated a.classes id d))
    (hc : EmitsClass image.pools a.classes id (annotated a.classes id d) c)
    (herrors : ∀ f ∈ d.fields, (fieldDecl a.classes id f).2 = []) :
    ∃ chunk, image.ChunkUnder c .initializer chunk ∧ (∀ f ∈ d.fields, ∀ e ∈ f.initializer, e.names = []) ∧
      Serves d.initializerUses chunk.code.toList ∧
      ∀ i ∈ chunk.code.toList, ∀ k, i.slot? = some k → k < chunk.locals := by
  have hmem : ∀ f ∈ d.fields, (fieldDecl a.classes id f).1 ∈ (annotated a.classes id d).fields :=
    fun f hf => annotated_fields d ▸ List.mem_map_of_mem hf
  have hfields : ∀ f ∈ d.fields, (fieldDecl a.classes id f).1.uses = f.uses ∧
      ∀ e ∈ f.initializer, e.names = [] := by
    intro f hf
    obtain ⟨entry, hentry, _⟩ := ht.fields _ (hmem f hf)
    have hname : (fieldDecl a.classes id f).1.name.name = f.name.name :=
      Option.some.inj (member_signature (.field f)).1
    refine fieldDecl_uses (f := entry) ?_ (herrors f hf)
    rw [ht.record, Option.bind_some, ← hname, hentry]
  have huses : (annotated a.classes id d).initializerUses = d.initializerUses := by
    rw [ClassDecl.initializerUses, annotated_fields, List.flatMap_map,
      List.flatMap_congr fun f hf => (hfields f hf).1]
    rfl
  obtain ⟨parent, chunk, hchunk, hsupports, himpl⟩ := exists_chunk W A ht hc (.inl rfl)
  refine ⟨chunk, hchunk, fun f hf => (hfields f hf).2, ?_, slot_lt hsupports⟩
  rw [← huses]
  generalize hkey : MemberKey.initializer = key at himpl
  cases himpl with
  | @initializer _ m codes _ hcodes hcode =>
    rw [hcode]
    have hfront : Serves [.receiver] [.load 0, .invoke parent m, .pop] := rfl
    exact serves_append (serves_append hfront (fields_serve hcodes)) (serves_receiver (serves_nil
      (List.forall_mem_singleton.mpr rfl)))
  | @method md _ => exact absurd hkey (md.name.key_ne rfl)
  | constructor | implicitConstructor => cases hkey

end AllocationLemmas

/-- In every body of a program a name has the slot of the variable whose binding the check finds for it.
Variables in scope at once have different slots, none of them has the slot of the receiver, and the chunk
has them all. -/
theorem Lower.slots_agree {p : Program Span} {a : Analysis} {image : Image}
    (hcheck : Check.program p = .ok a) (hlower : Lower.image a = .ok image) {i : Nat}
    {d : ClassDecl Span} (hd : p.classes[i]? = some d) :
    ∃ c, image.construct? (Builtin.count + i) = some c ∧
      ClassSlotsAgree a.classes image (TypeId.first + i) d c := by
  have W := Check.program_wellTyped hcheck
  have A := Lower.image_assembled hlower
  have hd' := Check.program_class hcheck hd
  rw [classDecl_annotated] at hd'
  obtain ⟨hfields, hmethods, hconstructors⟩ := forall_members.mp (Check.program_members hcheck hd)
  obtain ⟨c, hc, hemits⟩ := A.user i _ hd'
  obtain ⟨p, r, ht⟩ := W.each i _ hd'
  exact ⟨c, hc, fun md hmd => method_agrees W A ht hemits hmd (hmethods md hmd),
    fun cd hcd => constructor_agrees W A ht hemits hcd (hconstructors cd hcd),
    implicit_agrees W A ht hemits, initializer_agrees W A ht hemits hfields⟩

/-- A program in which a name hides another one and two variables take turns with a slot. -/
def turns : String :=
  "class Main : IO\n\x7b\n public new()\n \x7b\n let word = \"a\"\n if true then\n \x7b\n" ++
    " let word = word + \"b\"\n this.out(word)\n \x7d\n else\n \x7b\n let other = word\n" ++
    " this.out(other)\n \x7d\n this.out(word)\n \x7d\n\x7d\n"

/-- Names and slots of its constructor. -/
theorem turns_slots_agree : ∃ p a image d c, Program.ofSource turns = .ok p ∧
    Check.program p = .ok a ∧ Lower.image a = .ok image ∧ p.classes[0]? = some d ∧
    d.constructors.map (·.uses.filterMap (·.instr?)) = [[.load 0, .store 1, .load 1, .store 2, .load 0,
      .load 2, .load 1, .store 2, .load 0, .load 2, .load 0, .load 1]] ∧
    image.construct? (Builtin.count + 0) = some c ∧
    ClassSlotsAgree a.classes image (TypeId.first + 0) d c := by
  have hrun : (Program.ofSource turns).toOption.map (fun p =>
      (p.classes.map fun d => d.constructors.map (·.uses.filterMap (·.instr?)),
        ((Check.program p).toOption.bind fun a => (Lower.image a).toOption).isSome)) =
      some ([[[.load 0, .store 1, .load 1, .store 2, .load 0, .load 2, .load 1, .store 2, .load 0,
        .load 2, .load 0, .load 1]]], true) := by decide +kernel
  simp only [Option.map_eq_some_iff, Prod.mk.injEq, Option.isSome_iff_exists,
    Option.bind_eq_some_iff] at hrun
  obtain ⟨p, hp, huses, image, a, hcheck, hlower⟩ := hrun
  rw [toOption_eq_some] at hp hcheck hlower
  obtain ⟨d, hclasses, hd⟩ := List.map_eq_singleton_iff.mp huses
  have hget : p.classes[0]? = some d := by
    rw [hclasses]
    rfl
  obtain ⟨c, hc, hagree⟩ := Lower.slots_agree hcheck hlower hget
  exact ⟨p, a, image, d, c, hp, hcheck, hlower, hget, hd, hc, hagree⟩

end ClassLang
