import ClassLang.Proofs.WellTyped
import Mathlib.Data.List.Induction

/-!
# Variables in scope

Which variable a name stands for can be told from the text: the latest one of that name among those in
scope. This file says which these are at every place of a body, and that the check sees them so. A place
is named by the path that leads to it from the body (`Check.Place.follow`); on the way the environment of
the check is followed along with the variables. Every statement of the body is reached, and what the check
makes of it there is the statement of the checked body (`Check.Place.follow_tree`). What the check finds in
its scopes are then the bindings that it made for these variables, one by one and in the same order
(`Check.Place.follow_sees`), and every name that occurs is one of them (`Check.Place.names_resolved`).

A scope number would not do to tell variables apart, since branches side by side share theirs.
-/

namespace ClassLang

/-! ## Variables -/

/-- Where a variable is declared: a parameter has an index, and a path leads to a `let`. -/
inductive Site where
  | param (index : Nat)
  | letAt (path : List Nat)
deriving DecidableEq, Repr

/-- A parameter or a `let`. Its slot is the next one behind those of the variables that are in scope. -/
structure Variable where
  site : Site
  name : String
  slot : Nat
deriving DecidableEq, Repr

/-- The variables in scope behind parameters, the latest first. -/
def Variable.ofParams (params : List Param) : List Variable :=
  (params.zipIdx.map fun p => ⟨.param p.2, p.1.name.name, p.2 + 1⟩).reverse

/-- The need for a local slot: that of the receiver or that of a name. -/
inductive SlotUse (α : Type) where
  | receiver
  | read (x : α)
  | write (x : α)
deriving DecidableEq, Repr

namespace SlotUse

variable {α β : Type}

/-- The same need with another name. -/
def map (f : α → β) : SlotUse α → SlotUse β
  | .receiver => .receiver
  | .read x => .read (f x)
  | .write x => .write (f x)

/-- The name whose slot is needed. -/
def name? : SlotUse α → Option α
  | .receiver => none
  | .read x | .write x => some x

end SlotUse

section

variable {ν : Type}

mutual

/-- The slots that an expression needs, in the order in which it is evaluated. -/
def Expr.uses : Expr ν → List (SlotUse String)
  | .number _ _ | .string _ _ | .boolean _ _ | .null _ => []
  | .name x _ => [.read x]
  | .this _ | .base _ => [.receiver]
  | .member e _ _ | .unary _ e _ | .assert e _ | .instanceTest e _ _ | .cast e _ _ => e.uses
  | .call e es _ => e.uses ++ usesList es
  | .new _ es _ => usesList es
  | .assign (.name x _) v _ => v.uses ++ [.write x]
  | .assign e v _ => e.uses ++ v.uses
  | .binary _ l r _ => l.uses ++ r.uses

/-- `uses` of several expressions. -/
def Expr.usesList : List (Expr ν) → List (SlotUse String)
  | [] => []
  | e :: es => e.uses ++ usesList es

end

/-- The names that occur in an expression. -/
def Expr.names (e : Expr ν) : List String := e.uses.filterMap (·.name?)

namespace Stmt

/-- The expressions of a statement apart from those of its parts. -/
def operands : Stmt ν → List (Expr ν)
  | .define _ _ e _ | .ifThen e _ _ | .ifElse e _ _ _ | .while e _ _ | .expression e _ => [e]
  | .return e _ => e.toList
  | .block _ _ => []

/-- The variables in scope behind a statement to which a path leads. -/
def scopeBehind (scope : List Variable) (path : List Nat) : Stmt ν → List Variable
  | .define x _ _ _ => ⟨.letAt path, x.name, scope.length + 1⟩ :: scope
  | _ => scope

/-- A part of a statement: a branch, or a statement of a block. -/
def part? : Stmt ν → Nat → Option (Stmt ν)
  | .ifThen _ b _, 0 | .ifElse _ b _ _, 0 | .while _ b _, 0 => some b
  | .ifElse _ _ c _, 1 => some c
  | .block bs _, k => bs[k]?
  | _, _ => none

/-- The statement to which a path leads. -/
def at? (s : Stmt ν) : List Nat → Option (Stmt ν)
  | [] => some s
  | k :: path => (s.part? k).bind (·.at? path)

end Stmt

/-- What names stand for where variables are in scope. -/
def resolveUses (scope : List Variable) (uses : List (SlotUse String)) :
    List (SlotUse (Option Variable)) :=
  uses.map (·.map fun x => scope.find? (·.name == x))

namespace Stmt

mutual

/-- The slots that a statement needs, the parts in the order of the text. A `let` writes its own slot. -/
def uses (scope : List Variable) (path : List Nat) : Stmt ν → List (SlotUse (Option Variable))
  | .define x _ e _ =>
    resolveUses scope e.uses ++ [.write (some ⟨.letAt path, x.name, scope.length + 1⟩)]
  | .return e _ => resolveUses scope (Expr.usesList e.toList)
  | .ifThen e b _ => resolveUses scope e.uses ++ b.uses scope (path ++ [0])
  | .ifElse e b c _ =>
    resolveUses scope e.uses ++ b.uses scope (path ++ [0]) ++ c.uses scope (path ++ [1])
  | .while e b _ => resolveUses scope e.uses ++ b.uses scope (path ++ [0])
  | .block bs _ => usesFrom scope path 0 bs
  | .expression e _ => resolveUses scope e.uses

/-- `uses` of the statements of a block from the one with index `n` on. -/
def usesFrom (scope : List Variable) (path : List Nat) (n : Nat) :
    List (Stmt ν) → List (SlotUse (Option Variable))
  | [] => []
  | b :: bs => b.uses scope (path ++ [n]) ++
      usesFrom (b.scopeBehind scope (path ++ [n])) path (n + 1) bs

end

end Stmt

end

/-! ## Places -/

namespace Check

/-- Where the check is in a body: the environment it has there, the variables in scope, the latest first,
and the path to the statement. -/
structure Place where
  env : Environment
  scope : List Variable
  path : List Nat

namespace Place

/-- The same place in a scope of its own. -/
def enter (P : Place) : Place := { P with env := P.env.enter }

/-- The place of a part. -/
def child (P : Place) (n : Nat) : Place := { P with path := P.path ++ [n] }

/-- The place behind the statement with index `n`. -/
def behind (P : Place) (n : Nat) (s : Stmt Span) : Place :=
  ⟨(stmt P.env s).env, s.scopeBehind P.scope (P.path ++ [n]), P.path⟩

/-- Where the check comes to the statement that stands `k` behind the one with index `n`. -/
def partFrom (P : Place) (n : Nat) : List (Stmt Span) → Nat → Option (Place × Stmt Span)
  | [], _ => none
  | s :: _, 0 => some (P.child n, s)
  | s :: ss, k + 1 => (P.behind n s).partFrom (n + 1) ss k

/-- Where the check comes to a part of a statement: a branch, or a statement of a block. -/
def part (P : Place) : Stmt Span → Nat → Option (Place × Stmt Span)
  | .ifThen _ b _, 0 | .ifElse _ b _ _, 0 | .while _ b _, 0 => some (P.enter.child 0, b)
  | .ifElse _ _ c _, 1 => some (P.enter.child 1, c)
  | .block ss _, k => P.enter.partFrom 0 ss k
  | _, _ => none

/-- Where the check comes to the statement to which a path leads. -/
def follow (P : Place) (s : Stmt Span) : List Nat → Option (Place × Stmt Span)
  | [] => some (P, s)
  | k :: path => (P.part s k).bind fun q => q.1.follow q.2 path

end Place

/-- The place of a body behind its parameters. -/
def bodyPlace (env : Environment) (params : List Param) : Place := ⟨env, Variable.ofParams params, []⟩

/-- The check of a body makes a binding for a variable: for a parameter with its type, and for a `let` the
one that is visible behind it and not before it. -/
inductive Binds (env : Environment) (params : List Param) (types : List Ty) (body : Stmt Span) :
    Variable → Binding → Prop
  | param {k : Nat} {p : Param} {τ : Ty} : params[k]? = some p → types[k]? = some τ →
      Binds env params types body ⟨.param k, p.name.name, k + 1⟩ ⟨p.name.name, τ⟩
  | letAt {path : List Nat} {P : Place} {x : Ident} {w : Option TypeName} {e : Expr Span} {s : Span}
      {τ : Ty} :
      (bodyPlace env params).follow body path = some (P, .define x w e s) →
      (stmt P.env (.define x w e s)).env.visible = ⟨x.name, τ⟩ :: P.env.visible →
      Binds env params types body ⟨.letAt path, x.name, P.scope.length + 1⟩ ⟨x.name, τ⟩

/-- The slots of variables in scope go from 1 on, the latest variable has the highest one. -/
def SlotsInOrder (scope : List Variable) : Prop :=
  scope.map (·.slot) = (List.range' 1 scope.length).reverse

/-- A name stands for the variable `v`, the `k`-th in scope counted from the latest. What the check finds
for it is the `k`-th visible binding `b`, and that is the binding of `v`. -/
structure Place.Resolves (P : Place) (R : Variable → Binding → Prop) (x : String) (k : Nat)
    (v : Variable) (b : Binding) : Prop where
  latest : P.scope.findIdx? (·.name == x) = some k
  visible : P.env.visible.findIdx? (·.name == x) = some k
  stands : P.scope[k]? = some v
  binding : P.env.visible[k]? = some b
  binds : R v b
  found : (P.env.scopes.lookup? x).map (·.2) = some b

namespace ScopingLemmas

theorem slotsInOrder_cons {v : Variable} {scope : List Variable} :
    SlotsInOrder (v :: scope) ↔ v.slot = scope.length + 1 ∧ SlotsInOrder scope := by
  simp only [SlotsInOrder, List.map_cons, List.length_cons]
  rw [List.range'_concat, List.reverse_append]
  simp [Nat.add_comm]

theorem slotsInOrder_behind {ν : Type} {scope : List Variable} (h : SlotsInOrder scope)
    (path : List Nat) (s : Stmt ν) : SlotsInOrder (s.scopeBehind scope path) := by
  cases s with
  | define => exact slotsInOrder_cons.mpr ⟨rfl, h⟩
  | _ => exact h

theorem slotsInOrder_params (params : List Param) : SlotsInOrder (Variable.ofParams params) := by
  have hslots : params.zipIdx.map (·.2 + 1) = List.range' 1 params.length :=
    List.ext_getElem (by simp) (by simp [Nat.add_comm])
  simp [SlotsInOrder, Variable.ofParams, Function.comp_def, hslots]

end ScopingLemmas

open ScopingLemmas

/-! ## Checked expressions -/

mutual

/-- Annotating an expression changes nothing about the slots that it needs. -/
theorem infer_uses {env : Environment} : ∀ {e : Expr Span} {τ : Ty} {e' : Expr Typing},
    infer env e = .ok (τ, e') → e'.uses = e.uses
  | .number x s, τ, e', h => by cases h; rfl
  | .string c s, τ, e', h => by cases h; rfl
  | .boolean b s, τ, e', h => by cases h; rfl
  | .null s, τ, e', h => by cases h; rfl
  | .name x s, τ, e', h => by
    simp only [infer, bind_eq_ok, pure_eq_ok, Prod.mk.injEq] at h
    obtain ⟨_, _, rfl, rfl⟩ := h
    rfl
  | .this s, τ, e', h => by
    simp only [infer, bind_eq_ok, pure_eq_ok, Prod.mk.injEq] at h
    obtain ⟨_, _, rfl, rfl⟩ := h
    rfl
  | .base s, τ, e', h => by
    simp only [infer, bind_eq_ok, pure_eq_ok, Prod.mk.injEq] at h
    obtain ⟨_, _, rfl, rfl⟩ := h
    rfl
  | .member o x s, τ, e', h => by
    simp only [infer, bind_eq_ok, pure_eq_ok, Prod.exists, Prod.mk.injEq] at h
    obtain ⟨_, o', ho, _, _, _, _, _, rfl, rfl⟩ := h
    simpa only [Expr.uses] using infer_uses ho
  | .call (.member o x n) es s, τ, e', h => by
    simp only [infer, bind_eq_ok, pure_eq_ok, Prod.exists, TypedLemmas.argumentCount_ok,
      Prod.mk.injEq] at h
    obtain ⟨_, o', ho, _, _, _, _, _, _, _, _, hcount, es', hes, rfl, rfl⟩ := h
    simp only [Expr.uses, infer_uses ho, inferArguments_uses hcount hes]
  | .new c es s, τ, e', h => by
    simp only [infer, bind_eq_ok] at h
    obtain ⟨id, _, h⟩ := h
    split at h
    · exact absurd h (by simp)
    · simp only [bind_eq_ok, pure_eq_ok, TypedLemmas.argumentCount_ok, Prod.mk.injEq] at h
      obtain ⟨_, _, _, hcount, es', hes, rfl, rfl⟩ := h
      simp only [Expr.uses, inferArguments_uses hcount hes]
  | .assign (.name x n) v s, τ, e', h => by
    simp only [infer, bind_eq_ok, pure_eq_ok, Prod.exists, Prod.mk.injEq] at h
    obtain ⟨_, _, ⟨_, _, rfl, rfl⟩, h⟩ := h
    simp only [isBuiltinField, Bool.false_eq_true, ↓reduceIte, bind_eq_ok, pure_eq_ok,
      Prod.exists, Prod.mk.injEq] at h
    obtain ⟨_, v', hv, _, _, rfl, rfl⟩ := h
    simp only [Expr.uses, infer_uses hv]
  | .assign (.member o x n) v s, τ, e', h => by
    simp only [infer, bind_eq_ok, pure_eq_ok, Prod.exists, Prod.mk.injEq] at h
    obtain ⟨_, _, ⟨_, o', ho, _, _, _, _, _, rfl, rfl⟩, h⟩ := h
    split at h
    · exact absurd h (by simp)
    · simp only [bind_eq_ok, pure_eq_ok, Prod.exists, Prod.mk.injEq] at h
      obtain ⟨_, v', hv, _, _, rfl, rfl⟩ := h
      simp only [Expr.uses, infer_uses ho, infer_uses hv]
  | .binary op l r s, τ, e', h => by
    simp only [infer, bind_eq_ok, Prod.exists] at h
    obtain ⟨_, l', hl, _, r', hr, _, _, _, m, _, _, _, h⟩ := h
    have huses : l'.uses ++ r'.uses = l.uses ++ r.uses := by rw [infer_uses hl, infer_uses hr]
    split at h
    · simp only [pure_eq_ok, Prod.mk.injEq] at h
      obtain ⟨rfl, rfl⟩ := h
      simpa only [Expr.uses] using huses
    · simp only [bind_eq_ok, pure_eq_ok, Prod.mk.injEq] at h
      obtain ⟨_, _, rfl, rfl⟩ := h
      simpa only [Expr.uses] using huses
  | .unary op o s, τ, e', h => by
    simp only [infer, bind_eq_ok, pure_eq_ok, Prod.exists, Prod.mk.injEq] at h
    obtain ⟨_, o', ho, _, _, _, _, _, _, _, rfl, rfl⟩ := h
    simpa only [Expr.uses] using infer_uses ho
  | .assert o s, τ, e', h => by
    simp only [infer, bind_eq_ok, Prod.exists] at h
    obtain ⟨υ, o', ho, h⟩ := h
    have huses := infer_uses ho
    split at h
    · simp only [pure_eq_ok, Prod.mk.injEq] at h
      obtain ⟨rfl, rfl⟩ := h
      simpa only [Expr.uses] using huses
    · exact absurd h (by simp)
  | .instanceTest o w s, τ, e', h => by
    simp only [infer, bind_eq_ok, pure_eq_ok, Prod.exists, Prod.mk.injEq] at h
    obtain ⟨_, o', ho, _, _, rfl, rfl⟩ := h
    simpa only [Expr.uses] using infer_uses ho
  | .cast o w s, τ, e', h => by
    simp only [infer, bind_eq_ok, pure_eq_ok, Prod.exists, Prod.mk.injEq] at h
    obtain ⟨_, o', ho, _, _, rfl, rfl⟩ := h
    simpa only [Expr.uses] using infer_uses ho

theorem inferArguments_uses {env : Environment} : ∀ {params : List Ty} {es : List (Expr Span)}
    {es' : List (Expr Typing)}, params.length = es.length → inferArguments env params es = .ok es' →
    Expr.usesList es' = Expr.usesList es
  | [], [], es', _, h => by
    cases h
    rfl
  | p :: params, e :: es, es', hlen, h => by
    simp only [inferArguments, bind_eq_ok, pure_eq_ok, Prod.exists] at h
    obtain ⟨_, e', he, _, _, es'', hes, rfl⟩ := h
    simp only [Expr.usesList, infer_uses he, inferArguments_uses (Nat.succ.inj hlen) hes]

end

theorem inferArguments_inferred {env : Environment} {params : List Ty} {es : List (Expr Span)}
    {es' : List (Expr Typing)} (hlen : params.length = es.length)
    (h : inferArguments env params es = .ok es') : ∀ e ∈ es, ∃ τ e', infer env e = .ok (τ, e') := by
  induction es generalizing params es' with
  | nil => simp
  | cons e es ih =>
    match params with
    | p :: params =>
      simp only [inferArguments, bind_eq_ok, pure_eq_ok, Prod.exists] at h
      obtain ⟨τ, e', he, _, _, es'', hes, rfl⟩ := h
      exact List.forall_mem_cons.mpr ⟨⟨τ, e', he⟩, ih (Nat.succ.inj hlen) hes⟩

theorem mem_usesList {ν : Type} {es : List (Expr ν)} {x : String} :
    x ∈ (Expr.usesList es).filterMap (·.name?) ↔ ∃ e ∈ es, x ∈ e.names := by
  induction es with
  | nil => simp [Expr.usesList]
  | cons e es ih => simp [Expr.usesList, Expr.names, ih]

/-- The names of a well-typed expression have types. -/
theorem typed_names_bound {env : Environment} {e : Expr Typing} {τ : Ty} (h : Typed env e τ)
    {x : String} (hx : x ∈ e.names) : ∃ υ, env.typeOf? x = some υ := by
  have harguments {es : List (Expr Typing)} {τs : List Ty} (hlen : es.length = τs.length)
      (ih : ∀ p ∈ es.zip τs, x ∈ p.1.names → ∃ υ, env.typeOf? x = some υ)
      (hx : ∃ e ∈ es, x ∈ e.names) : ∃ υ, env.typeOf? x = some υ := by
    obtain ⟨e, he, hx⟩ := hx
    obtain ⟨i, hi, rfl⟩ := List.mem_iff_getElem.mp he
    have hmem : (es[i], τs[i]) ∈ es.zip τs := List.mem_iff_getElem.mpr ⟨i, by simp; omega, by simp⟩
    exact ih _ hmem hx
  induction h with
  | number | string | boolean | null | this | base => simp [Expr.names, Expr.uses, SlotUse.name?] at hx
  | name hτ =>
    simp only [Expr.names, Expr.uses, List.filterMap_cons, SlotUse.name?, List.filterMap_nil,
      List.mem_singleton] at hx
    exact hx ▸ ⟨_, hτ⟩
  | member _ _ _ _ ih | unary _ _ _ _ ih | assert _ ih | instanceTest _ _ _ ih | cast _ _ _ ih =>
    exact ih hx
  | call _ _ _ _ hlen _ _ ih ihs =>
    simp only [Expr.names, Expr.uses, List.filterMap_append, List.mem_append, mem_usesList] at hx
    exact hx.elim ih (harguments hlen ihs)
  | new _ _ _ hlen _ _ ihs =>
    simp only [Expr.names, Expr.uses, mem_usesList] at hx
    exact harguments hlen ihs hx
  | assignName hτ _ _ ih =>
    simp only [Expr.names, Expr.uses, List.filterMap_append, List.mem_append, List.filterMap_cons,
      SlotUse.name?, List.filterMap_nil, List.mem_singleton] at hx
    exact hx.elim ih fun hx => hx ▸ ⟨_, hτ⟩
  | assignMember _ _ _ _ _ _ _ ih ih' | binary _ _ _ _ _ _ ih ih' =>
    simp only [Expr.names, Expr.uses, List.filterMap_append, List.mem_append] at hx
    exact hx.elim ih ih'

theorem condition_inferred {env : Environment} {e : Expr Span} (h : (condition env e).2 = []) :
    ∃ τ, infer env e = .ok (τ, (condition env e).1) := by
  unfold condition at h ⊢
  split at h
  · next he => exact ⟨_, he⟩
  · simp at h

theorem tolerate_inferred {env : Environment} {e : Expr Span} (h : (tolerate env e).2 = []) :
    ∃ τ, infer env e = .ok (τ, (tolerate env e).1) := by
  unfold tolerate at h ⊢
  split at h
  · next he => exact ⟨_, he⟩
  · simp at h

theorem define_inferred {env : Environment} {x : Ident} {w : Option TypeName} {e : Expr Span}
    (h : (define env x w e).errors = []) : ∃ τ, infer env e = .ok (τ, (define env x w e).value) := by
  cases he : infer env e with
  | error e' =>
    exfalso
    cases w with
    | none => simp [define, defineInferred, he] at h
    | some w =>
      simp only [define, defineAs, he] at h
      split at h
      · simp at h
      · split at h <;> simp at h
  | ok found =>
    refine ⟨found.1, congrArg _ (Prod.ext rfl ?_)⟩
    cases w with
    | none =>
      simp only [define, defineInferred, he]
      split
      · rfl
      · split
        · rfl
        · split <;> rfl
    | some w =>
      simp only [define, defineAs, he] at h ⊢
      split at h
      · simp at h
      · split
        · rfl
        · split <;> rfl

theorem return_inferred {env : Environment} {v : Option (Expr Span)} {s : Span}
    (h : (returnValue env v s).2 = []) :
    ∀ e ∈ v, ∃ τ e', infer env e = .ok (τ, e') ∧ (returnValue env v s).1 = some e' := by
  rintro e rfl
  cases he : infer env e with
  | error e' => simp [returnValue, he] at h
  | ok found => exact ⟨found.1, found.2, rfl, by simp [returnValue, he]⟩

/-- The names of an expression that is found to be right are visible. -/
theorem infer_names_bound {env : Environment} {e : Expr Span} {τ : Ty} {e' : Expr Typing}
    (h : infer env e = .ok (τ, e')) {x : String} (hx : x ∈ e.names) : ∃ υ, env.typeOf? x = some υ :=
  typed_names_bound (infer_typed h) (by rwa [Expr.names, infer_uses h])

/-- The expressions of a statement without an error are found to be right. -/
theorem operands_inferred {env : Environment} {s : Stmt Span} (h : (stmt env s).errors = []) :
    ∀ e ∈ s.operands, ∃ τ e', infer env e = .ok (τ, e') := by
  cases s with
  | define x w e sp =>
    obtain ⟨τ, he⟩ := define_inferred h
    exact List.forall_mem_singleton.mpr ⟨τ, _, he⟩
  | «return» v sp =>
    intro e he
    obtain ⟨τ, e', he', _⟩ := return_inferred h e (Option.mem_toList.mp he)
    exact ⟨τ, e', he'⟩
  | ifThen c b sp | «while» c b sp =>
    simp only [stmt, List.append_eq_nil_iff] at h
    obtain ⟨τ, he⟩ := condition_inferred h.1
    exact List.forall_mem_singleton.mpr ⟨τ, _, he⟩
  | ifElse c b o sp =>
    simp only [stmt, List.append_eq_nil_iff] at h
    obtain ⟨τ, he⟩ := condition_inferred h.1.1
    exact List.forall_mem_singleton.mpr ⟨τ, _, he⟩
  | block ss sp => simp [Stmt.operands]
  | expression e sp =>
    obtain ⟨τ, he⟩ := tolerate_inferred h
    exact List.forall_mem_singleton.mpr ⟨τ, _, he⟩

mutual

/-- Annotating a statement changes nothing about the slots that it needs. -/
theorem stmt_uses : ∀ {env : Environment} {s : Stmt Span}, (stmt env s).errors = [] →
    ∀ scope path, (stmt env s).value.uses scope path = s.uses scope path
  | env, .define x w e s, h, scope, path => by
    obtain ⟨τ, he⟩ := define_inferred h
    simp only [stmt, Stmt.uses, infer_uses he]
  | env, .return v s, h, scope, path => by
    cases v with
    | none => rfl
    | some e =>
      have hreturn : (returnValue env (some e) s).2 = [] := h
      obtain ⟨τ, e', he, hvalue⟩ := return_inferred hreturn e rfl
      simp only [stmt, Stmt.uses, hvalue, Option.toList_some, Expr.usesList, infer_uses he]
  | env, .ifThen c b s, h, scope, path => by
    simp only [stmt, List.append_eq_nil_iff] at h
    obtain ⟨τ, he⟩ := condition_inferred h.1
    simp only [stmt, Stmt.uses, infer_uses he, stmt_uses h.2]
  | env, .ifElse c b o s, h, scope, path => by
    simp only [stmt, List.append_eq_nil_iff] at h
    obtain ⟨τ, he⟩ := condition_inferred h.1.1
    simp only [stmt, Stmt.uses, infer_uses he, stmt_uses h.1.2, stmt_uses h.2]
  | env, .while c b s, h, scope, path => by
    simp only [stmt, List.append_eq_nil_iff] at h
    obtain ⟨τ, he⟩ := condition_inferred h.1
    simp only [stmt, Stmt.uses, infer_uses he, stmt_uses h.2]
  | env, .block ss s, h, scope, path => by
    have hstmts : (stmts env.enter ss).errors = [] := h
    simp only [stmt, Stmt.uses, stmts_uses hstmts]
  | env, .expression e s, h, scope, path => by
    obtain ⟨τ, he⟩ := tolerate_inferred h
    simp only [stmt, Stmt.uses, infer_uses he]

theorem stmts_uses : ∀ {env : Environment} {ss : List (Stmt Span)}, (stmts env ss).errors = [] →
    ∀ scope path n, Stmt.usesFrom scope path n (stmts env ss).value = Stmt.usesFrom scope path n ss
  | env, [], _, _, _, _ => rfl
  | env, s :: ss, h, scope, path, n => by
    simp only [stmts, List.append_eq_nil_iff] at h
    have hscope : ∀ path, (stmt env s).value.scopeBehind scope path = s.scopeBehind scope path := by
      intro path
      cases s <;> rfl
    simp only [stmts, Stmt.usesFrom, stmt_uses h.1, stmts_uses h.2, hscope]

end

namespace Place

variable {P Q : Place} {s s' : Stmt Span} {ss : List (Stmt Span)} {n k : Nat} {path : List Nat}

/-- What the check can come to next. -/
theorem part_cases (h : P.part s k = some (Q, s')) :
    (Q = P.enter.child k ∧ ∃ c sp, (s = .ifThen c s' sp ∧ k = 0) ∨ (∃ o, s = .ifElse c s' o sp ∧ k = 0) ∨
      (∃ b, s = .ifElse c b s' sp ∧ k = 1) ∨ (s = .while c s' sp ∧ k = 0)) ∨
    ∃ ss sp, s = .block ss sp ∧ P.enter.partFrom 0 ss k = some (Q, s') := by
  unfold part at h
  split at h
  · cases h
    exact .inl ⟨rfl, _, _, .inl ⟨rfl, rfl⟩⟩
  · cases h
    exact .inl ⟨rfl, _, _, .inr (.inl ⟨_, rfl, rfl⟩)⟩
  · cases h
    exact .inl ⟨rfl, _, _, .inr (.inr (.inr ⟨rfl, rfl⟩))⟩
  · cases h
    exact .inl ⟨rfl, _, _, .inr (.inr (.inl ⟨_, rfl, rfl⟩))⟩
  · exact .inr ⟨_, _, rfl, h⟩
  · cases h

theorem follow_snoc : P.follow s (path ++ [k]) = (P.follow s path).bind fun q => q.1.part q.2 k := by
  induction path generalizing P s with
  | nil =>
    simp only [List.nil_append, follow, Option.bind_some]
    cases P.part s k <;> rfl
  | cons j path ih =>
    simp only [List.cons_append, follow, Option.bind_assoc, ih]

theorem partFrom_path (h : P.partFrom n ss k = some (Q, s')) : Q.path = P.path ++ [n + k] := by
  induction ss generalizing P n k with
  | nil => simp [partFrom] at h
  | cons s ss ih =>
    cases k with
    | zero =>
      cases h
      rfl
    | succ k =>
      have hpath := ih h
      rwa [Nat.add_assoc, Nat.add_comm 1] at hpath

theorem part_path (h : P.part s k = some (Q, s')) : Q.path = P.path ++ [k] := by
  rcases part_cases h with ⟨rfl, _⟩ | ⟨ss, sp, _, h⟩
  · rfl
  · have hpath := partFrom_path h
    rwa [Nat.zero_add] at hpath

theorem follow_path (h : P.follow s path = some (Q, s')) : Q.path = P.path ++ path := by
  induction path generalizing P s with
  | nil =>
    cases h
    simp
  | cons k path ih =>
    obtain ⟨⟨P', s₁⟩, hpart, hfollow⟩ := Option.bind_eq_some_iff.mp h
    rw [ih hfollow, part_path hpart, List.append_assoc]
    rfl

theorem partFrom_tree : (P.partFrom n ss k).map (·.2) = ss[k]? ∧
    (P.partFrom n ss k).map (fun q => (stmt q.1.env q.2).value) = (stmts P.env ss).value[k]? := by
  induction ss generalizing P n k with
  | nil => simp [partFrom, stmts]
  | cons s ss ih =>
    cases k with
    | zero => exact ⟨rfl, rfl⟩
    | succ k => exact ih

theorem part_tree : (P.part s k).map (·.2) = s.part? k ∧
    (P.part s k).map (fun q => (stmt q.1.env q.2).value) = (stmt P.env s).value.part? k := by
  cases s with
  | ifThen c b sp | «while» c b sp => rcases k with _ | k <;> exact ⟨rfl, rfl⟩
  | ifElse c b o sp => rcases k with _ | _ | k <;> exact ⟨rfl, rfl⟩
  | block ss sp => exact partFrom_tree (P := P.enter)
  | _ => exact ⟨rfl, rfl⟩

/-- The check comes to every statement of a tree, with the environment of the place. -/
theorem follow_tree : (P.follow s path).map (·.2) = s.at? path ∧
    (P.follow s path).map (fun q => (stmt q.1.env q.2).value) = (stmt P.env s).value.at? path := by
  induction path generalizing P s with
  | nil => exact ⟨rfl, rfl⟩
  | cons k path ih =>
    obtain ⟨hpart, hvalue⟩ := part_tree (P := P) (s := s) (k := k)
    simp only [follow, Stmt.at?, ← hpart, ← hvalue, Option.map_bind, Option.bind_map]
    exact ⟨congrArg _ (funext fun q => ih.1), congrArg _ (funext fun q => ih.2)⟩

/-! ## Uses -/

theorem partFrom_uses (h : P.partFrom n ss k = some (Q, s)) :
    s.uses Q.scope Q.path <:+: Stmt.usesFrom P.scope P.path n ss := by
  induction ss generalizing P n k with
  | nil => simp [partFrom] at h
  | cons st ss ih =>
    cases k with
    | zero =>
      cases h
      exact List.infix_append_of_infix_left (List.infix_refl _)
    | succ k => exact List.infix_append_of_infix_right (ih h)

/-- The slots that a part needs are needed one after the other. -/
theorem part_uses (h : P.part s k = some (Q, s')) :
    s'.uses Q.scope Q.path <:+: s.uses P.scope P.path := by
  have hlast {before uses : List (SlotUse (Option Variable))} : uses <:+: before ++ uses :=
    (List.suffix_append _ _).isInfix
  rcases part_cases h with ⟨rfl, c, sp, hcases⟩ | ⟨ss, sp, rfl, hblock⟩
  · rcases hcases with ⟨rfl, rfl⟩ | ⟨o, rfl, rfl⟩ | ⟨b, rfl, rfl⟩ | ⟨rfl, rfl⟩
    · exact hlast
    · exact List.infix_append_of_infix_left hlast
    · exact hlast
    · exact hlast
  · exact partFrom_uses (P := P.enter) hblock

theorem follow_uses (h : P.follow s path = some (Q, s')) :
    s'.uses Q.scope Q.path <:+: s.uses P.scope P.path := by
  induction path generalizing P s with
  | nil =>
    cases h
    exact List.infix_refl _
  | cons k path ih =>
    obtain ⟨⟨P', s₁⟩, hpart, hfollow⟩ := Option.bind_eq_some_iff.mp h
    exact (ih hfollow).trans (part_uses hpart)

/-! ## What the check sees -/

/-- What the check knows of the variables in scope when it comes to a statement in which it finds no
error. -/
structure Sees (R : Variable → Binding → Prop) (P : Place) (s : Stmt Span) : Prop where
  errors : (stmt P.env s).errors = []
  bindings : List.Forall₂ R P.scope P.env.visible
  slots : SlotsInOrder P.scope

variable {R : Variable → Binding → Prop}

/-- Behind a statement there is one binding more exactly if there is one variable more. -/
theorem behind_bindings (herrors : (stmt P.env s).errors = [])
    (hlet : ∀ x w e sp τ, s = .define x w e sp →
      (stmt P.env s).env.visible = ⟨x.name, τ⟩ :: P.env.visible →
      R ⟨.letAt (P.path ++ [n]), x.name, P.scope.length + 1⟩ ⟨x.name, τ⟩)
    (h : List.Forall₂ R P.scope P.env.visible) :
    List.Forall₂ R (P.behind n s).scope (P.behind n s).env.visible := by
  cases s with
  | define x w e sp =>
    obtain ⟨_, τ, _, _, _, hbind⟩ := define_ok herrors
    have hvisible : (stmt P.env (.define x w e sp)).env.visible = ⟨x.name, τ⟩ :: P.env.visible :=
      Environment.bind_visible hbind
    rw [behind, hvisible]
    exact .cons (hlet x w e sp _ rfl hvisible) h
  | _ => exact h

/-- One statement of a block after the other. -/
theorem partFrom_sees (hlet : ∀ (j : Nat) P' x w e sp τ,
      P.partFrom n ss j = some (P', .define x w e sp) →
      (stmt P'.env (.define x w e sp)).env.visible = ⟨x.name, τ⟩ :: P'.env.visible →
      R ⟨.letAt P'.path, x.name, P'.scope.length + 1⟩ ⟨x.name, τ⟩)
    (herrors : (stmts P.env ss).errors = []) (h : List.Forall₂ R P.scope P.env.visible)
    (hslots : SlotsInOrder P.scope) (hpart : P.partFrom n ss k = some (Q, s)) : Q.Sees R s := by
  induction ss generalizing P n k with
  | nil => simp [partFrom] at hpart
  | cons st ss ih =>
    simp only [stmts, List.append_eq_nil_iff] at herrors
    cases k with
    | zero =>
      cases hpart
      exact ⟨herrors.1, h, hslots⟩
    | succ k =>
      refine ih (fun j => hlet (j + 1)) herrors.2 (behind_bindings herrors.1 ?_ h)
        (slotsInOrder_behind hslots _ _) hpart
      rintro x w e sp τ rfl hτ
      exact hlet 0 (P.child n) x w e sp τ rfl hτ

/-- From a statement to a part of it. -/
theorem part_sees (hlet : ∀ (j : Nat) P' x w e sp τ, P.part s j = some (P', .define x w e sp) →
      (stmt P'.env (.define x w e sp)).env.visible = ⟨x.name, τ⟩ :: P'.env.visible →
      R ⟨.letAt P'.path, x.name, P'.scope.length + 1⟩ ⟨x.name, τ⟩)
    (h : P.Sees R s) (hpart : P.part s k = some (Q, s')) : Q.Sees R s' := by
  have herrors := h.errors
  have hvisible : P.enter.env.visible = P.env.visible := Environment.visible_enter
  have hbindings : List.Forall₂ R P.enter.scope P.enter.env.visible := hvisible ▸ h.bindings
  rcases part_cases hpart with ⟨rfl, c, sp, hcases⟩ | ⟨ss, sp, rfl, hblock⟩
  · refine ⟨?_, hbindings, h.slots⟩
    rcases hcases with ⟨rfl, _⟩ | ⟨o, rfl, _⟩ | ⟨b, rfl, _⟩ | ⟨rfl, _⟩
    all_goals
      simp only [stmt, List.append_eq_nil_iff] at herrors
    · exact herrors.2
    · exact herrors.1.2
    · exact herrors.2
    · exact herrors.2
  · exact partFrom_sees hlet herrors hbindings h.slots hblock

end Place

variable {env : Environment} {params : List Param} {types : List Ty} {body s : Stmt Span}
  {path : List Nat} {Q : Place}

/-- Behind the parameters the check sees their bindings. -/
theorem params_seen {t : ClassTable} {id : TypeId} {result : Ty}
    (h : ParamsBound t id result params types env) (hlen : types.length = params.length) :
    List.Forall₂ (Binds env params types body) (Variable.ofParams params) env.visible := by
  rw [h.visible, Variable.ofParams, List.forall₂_reverse_iff, List.forall₂_iff_get]
  refine ⟨by simp [hlen], fun k hk hk' => ?_⟩
  have hp : k < params.length := by simpa using hk
  have hτ : k < types.length := hlen ▸ hp
  simpa using Binds.param (List.getElem?_eq_getElem hp) (List.getElem?_eq_getElem hτ)

theorem Binds.name_eq {v : Variable} {b : Binding} (h : Binds env params types body v b) :
    v.name = b.name := by
  cases h <;> rfl

/-- Where the check sees the bindings of the variables in scope, a name that it finds is that of a
variable. -/
theorem resolved {P : Place} (h : List.Forall₂ (Binds env params types body) P.scope P.env.visible)
    {x : String} (hx : ∃ υ, P.env.typeOf? x = some υ) :
    ∃ k v b, P.Resolves (Binds env params types body) x k v b := by
  obtain ⟨υ, hυ⟩ := hx
  obtain ⟨found, hfound, _⟩ := Option.map_eq_some_iff.mp hυ
  have hlookup : (P.env.scopes.lookup? x).map (·.2) = some found.2 := by rw [hfound, Option.map_some]
  have hvisible := hlookup
  rw [Environment.lookup_visible, List.find?_eq_bind_findIdx?_getElem?] at hvisible
  obtain ⟨k, hk, hb⟩ := Option.bind_eq_some_iff.mp hvisible
  obtain ⟨hlt, hget⟩ := List.getElem?_eq_some_iff.mp hb
  have hlt' : k < P.scope.length := h.length_eq ▸ hlt
  have hnames : P.scope.map (·.name) = P.env.visible.map (·.name) :=
    List.forall₂_eq_eq_eq ▸ List.forall₂_map_left_iff.mpr
      (List.forall₂_map_right_iff.mpr (h.imp fun _ _ => Binds.name_eq))
  have hscope : P.scope.findIdx? (·.name == x) = some k := by
    rw [← hk]
    simpa only [List.findIdx?_map, Function.comp_def] using
      congrArg (List.findIdx? (· == x)) hnames
  exact ⟨k, _, _, hscope, hk, List.getElem?_eq_getElem hlt', hb, hget ▸ h.get hlt' hlt, hlookup⟩

/-- At every place of a body the check sees the bindings that it made for the variables in scope. -/
theorem Place.follow_sees (hparams : List.Forall₂ (Binds env params types body)
      (Variable.ofParams params) env.visible)
    (herrors : (stmt env body).errors = [])
    (h : (bodyPlace env params).follow body path = some (Q, s)) :
    Q.Sees (Binds env params types body) s := by
  induction path using List.reverseRecOn generalizing Q s with
  | nil =>
    cases h
    exact ⟨herrors, hparams, slotsInOrder_params params⟩
  | append_singleton path k ih =>
    rw [follow_snoc] at h
    obtain ⟨⟨P, st⟩, hfollow, hpart⟩ := Option.bind_eq_some_iff.mp h
    refine part_sees (fun j P' x w e sp τ hj hτ => ?_) (ih hfollow) hpart
    have hlet : (bodyPlace env params).follow body (path ++ [j]) = some (P', .define x w e sp) := by
      rw [follow_snoc, hfollow]
      exact hj
    have hpath : P'.path = path ++ [j] := follow_path hlet
    rw [hpath]
    exact .letAt hlet hτ

/-- A name that occurs at a place of a body stands for the latest variable of that name in scope, and the
check finds the binding of that variable. -/
theorem Place.names_resolved (h : Q.Sees (Binds env params types body) s) {e : Expr Span}
    (he : e ∈ s.operands) {x : String} (hx : x ∈ e.names) :
    ∃ k v b, Q.Resolves (Binds env params types body) x k v b := by
  obtain ⟨τ, e', he'⟩ := operands_inferred h.errors e he
  exact resolved h.bindings (infer_names_bound he' hx)

end Check

end ClassLang
