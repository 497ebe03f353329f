import ClassLang.Lowering.Program
import ClassLang.Proofs.Success

/-!
# Pools that grow

Lowering only adds to the pools, so an index that one chunk was given stays right for all later ones
(`expr_grows`, `stmt_grows`, `classes_grows`). No member is in the pools twice; this makes the body tables
of constructs, which go by index, tables that go by key.
-/

namespace ClassLang

/-- `Le p q`: `q` has what `p` has, at the same indices. -/
structure Pools.Le (p q : Pools) : Prop where
  members : ∀ (i : Nat) key, p.members[i]? = some key → q.members[i]? = some key
  constants : ∀ (i : Nat) c, p.constants.get? i = some c → q.constants.get? i = some c

/-- No member is in the pools twice. -/
def Pools.Distinct (p : Pools) : Prop :=
  ∀ (i j : Nat) key, p.members[i]? = some key → p.members[j]? = some key → i = j

namespace Pools

variable {p q r : Pools}

theorem Le.refl : p.Le p := ⟨fun _ _ h => h, fun _ _ h => h⟩

theorem Le.trans (h : p.Le q) (h' : q.Le r) : p.Le r :=
  ⟨fun i key hi => h'.members i key (h.members i key hi),
    fun i c hi => h'.constants i c (h.constants i c hi)⟩

end Pools

/-- Two numbers with the same bits are the same number. -/
theorem Constant.eq_of_same {c d : Constant} (h : c.same d = true) : c = d := by
  cases c with
  | string s =>
    cases d with
    | string s' => exact congrArg _ (by simpa [same] using h)
    | number x => cases h
  | number x =>
    cases d with
    | string s => cases h
    | number y =>
      obtain ⟨⟨x, _⟩⟩ := x
      obtain ⟨⟨y, _⟩⟩ := y
      have hbits : x = y := eq_of_beq h
      subst hbits
      rfl

theorem Float.eq_of_toBits {x y : Float} (h : x.toBits = y.toBits) : x = y := by
  have hsame : (Constant.number x).same (.number y) = true := by simp [Constant.same, h]
  injection Constant.eq_of_same hsame

namespace ConstantPool

/-- The index of a constant finds it. -/
theorem add_get (pool : ConstantPool) (c : Constant) :
    (pool.add c).2.get? (pool.add c).1 = some c := by
  unfold add
  split
  · next i hi =>
    obtain ⟨hlt, hfound, _⟩ := Array.findIdx?_eq_some_iff_getElem.mp hi
    rw [get?, Array.getElem?_eq_getElem hlt, Constant.eq_of_same hfound]
  · simp [get?, size]

theorem add_kept (pool : ConstantPool) (c : Constant) {i : Nat} {d : Constant}
    (h : pool.get? i = some d) : (pool.add c).2.get? i = some d := by
  unfold add
  split
  · exact h
  · obtain ⟨hlt, hd⟩ := Array.getElem?_eq_some_iff.mp h
    rw [get?, Array.getElem?_push_lt hlt, hd]

end ConstantPool

namespace Lower

variable {α β : Type}

/-- The pools grow whenever a step succeeds, and stay without repetition. -/
def Grows (x : Lower α) : Prop :=
  ∀ ⦃p a p'⦄, Gives x p a p' → p.Le p' ∧ (p.Distinct → p'.Distinct)

namespace Grows

theorem bind {x : Lower α} {f : α → Lower β} (hx : Grows x) (hf : ∀ a, Grows (f a)) :
    Grows (x >>= f) := by
  intro p b p' h
  obtain ⟨a, q, ha, hb⟩ := bind_gives.mp h
  obtain ⟨hle, hd⟩ := hx ha
  obtain ⟨hle', hd'⟩ := hf a hb
  exact ⟨hle.trans hle', fun h => hd' (hd h)⟩

theorem pure {a : α} : Grows (pure a) := by
  intro p b p' h
  obtain ⟨_, rfl⟩ := pure_gives.mp h
  exact ⟨.refl, fun h => h⟩

theorem fail {d : LoweringDefect} : Grows (fail d : Lower α) := fun _ _ _ h => (fail_gives.mp h).elim

theorem throw {e : BuildError} : Grows (throw e : Lower α) := fun _ _ _ h => (throw_gives.mp h).elim

theorem map {x : Lower α} {f : α → β} (hx : Grows x) : Grows (f <$> x) := by
  rw [map_eq_pure_bind]
  exact hx.bind fun _ => .pure

theorem lift {x : Except BuildError α} : Grows (liftM x : Lower α) := by
  intro p a p' h
  obtain ⟨_, rfl⟩ := lift_gives.mp h
  exact ⟨.refl, fun h => h⟩

theorem mapM {f : α → Lower β} (hf : ∀ a, Grows (f a)) (as : List α) : Grows (as.mapM f) := by
  induction as with
  | nil => exact .pure
  | cons a as ih =>
    rw [List.mapM_cons]
    exact (hf a).bind fun _ => ih.bind fun _ => .pure

end Grows

theorem member_gives {key : MemberKey} {p p' : Pools} {m : Nat} (h : Gives (member key) p m p') :
    p'.members[m]? = some key := by
  have h' : p.addMember key = (m, p') := Except.ok.inj h
  unfold Pools.addMember at h'
  split at h'
  · next i hi =>
    cases h'
    obtain ⟨hlt, hfound, _⟩ := Array.findIdx?_eq_some_iff_getElem.mp hi
    rw [Array.getElem?_eq_getElem hlt]
    exact congrArg some (by simpa using hfound)
  · cases h'
    simp

theorem member_grows {key : MemberKey} : Grows (member key) := by
  intro p m p' h
  have h' : p.addMember key = (m, p') := Except.ok.inj h
  unfold Pools.addMember at h'
  split at h'
  · cases h'
    exact ⟨.refl, fun h => h⟩
  · next hnone =>
    cases h'
    have hnew : ∀ (i : Nat) k, p.members[i]? = some k → k ≠ key := by
      intro i k hi heq
      obtain ⟨hlt, rfl⟩ := Array.getElem?_eq_some_iff.mp hi
      simpa [heq] using Array.findIdx?_eq_none_iff.mp hnone p.members[i] (Array.getElem_mem hlt)
    refine ⟨⟨fun i k hi => ?_, fun _ _ h => h⟩, fun hd i j k hi hj => ?_⟩
    · obtain ⟨hlt, hk⟩ := Array.getElem?_eq_some_iff.mp hi
      rw [Array.getElem?_push_lt hlt, hk]
    · simp only [Array.getElem?_push] at hi hj
      split at hi <;> split at hj
      · omega
      · cases hi
        exact absurd rfl (hnew j _ hj)
      · cases hj
        exact absurd rfl (hnew i _ hi)
      · exact hd i j k hi hj

theorem constant_gives {c : Constant} {p p' : Pools} {i : Nat} (h : Gives (constant c) p i p') :
    p'.constants.get? i = some c := by
  have h' : p.addConstant c = (i, p') := Except.ok.inj h
  cases h'
  exact p.constants.add_get c

theorem constant_grows {c : Constant} : Grows (constant c) := by
  intro p i p' h
  have h' : p.addConstant c = (i, p') := Except.ok.inj h
  cases h'
  exact ⟨⟨fun _ _ h => h, fun _ _ h => p.constants.add_kept c h⟩, fun h => h⟩

/-! ## Expressions -/

theorem constructOf_grows {t : ClassTable} {id : TypeId} : Grows (constructOf t id) := by
  unfold constructOf
  split
  · exact .pure
  · exact .fail

theorem typeOf_grows {e : Expr Typing} : Grows (typeOf e) := by
  unfold typeOf
  split
  · exact .pure
  · exact .fail

theorem fieldOffset_grows {t : ClassTable} {id : TypeId} {x : String} :
    Grows (fieldOffset t id x) := by
  unfold fieldOffset
  split
  · split
    · exact .pure
    · exact .fail
  · exact .fail

theorem testTarget_grows {t : ClassTable} {w : TypeName} : Grows (testTarget t w) := by
  unfold testTarget
  split
  · exact .pure
  · exact .fail

theorem number_grows {x : Float} : Grows (number x) := by
  unfold number
  split
  · exact .pure
  · split
    · exact .pure
    · exact .map constant_grows

mutual

theorem expr_grows (t : ClassTable) (slots : Slots) : ∀ e, Grows (expr t slots e)
  | .number .. => .bind number_grows fun _ => .pure
  | .string .. => .bind constant_grows fun _ => .pure
  | .boolean .. | .null .. | .this .. | .base .. => .pure
  | .name .. => .bind .lift fun _ => .pure
  | .member o _ _ => .bind (expr_grows t slots o) fun _ => .bind typeOf_grows fun _ =>
      .bind fieldOffset_grows fun _ => .pure
  | .call (.member o _ _) es _ => .bind member_grows fun _ => .bind typeOf_grows fun _ =>
      .bind constructOf_grows fun _ => .bind (expr_grows t slots o) fun _ =>
      .bind (exprs_grows t slots es) fun _ => .pure
  | .call (.number ..) .. | .call (.string ..) .. | .call (.boolean ..) .. | .call (.null ..) ..
  | .call (.name ..) .. | .call (.this ..) .. | .call (.base ..) .. | .call (.call ..) ..
  | .call (.new ..) .. | .call (.assign ..) .. | .call (.binary ..) .. | .call (.unary ..) ..
  | .call (.assert ..) .. | .call (.instanceTest ..) .. | .call (.cast ..) .. => .fail
  | .new c es _ => by
    unfold expr
    split
    · exact .fail
    · exact .bind constructOf_grows fun _ => .bind member_grows fun _ =>
        .bind (exprs_grows t slots es) fun _ => .pure
  | .assign (.name ..) v _ => .bind .lift fun _ => .bind (expr_grows t slots v) fun _ => .pure
  | .assign (.member o _ _) v _ => .bind typeOf_grows fun _ => .bind fieldOffset_grows fun _ =>
      .bind (expr_grows t slots o) fun _ => .bind (expr_grows t slots v) fun _ => .pure
  | .assign (.number ..) .. | .assign (.string ..) .. | .assign (.boolean ..) ..
  | .assign (.null ..) .. | .assign (.this ..) .. | .assign (.base ..) .. | .assign (.call ..) ..
  | .assign (.new ..) .. | .assign (.assign ..) .. | .assign (.binary ..) ..
  | .assign (.unary ..) .. | .assign (.assert ..) .. | .assign (.instanceTest ..) ..
  | .assign (.cast ..) .. => .fail
  | .binary op l r _ => by
    unfold expr
    refine .bind typeOf_grows fun _ => .bind typeOf_grows fun _ =>
      .bind (expr_grows t slots l) fun _ => .bind (expr_grows t slots r) fun _ => ?_
    split
    · exact .pure
    · refine .bind member_grows fun _ => .bind constructOf_grows fun _ => ?_
      split <;> exact .pure
  | .unary op o _ => by
    unfold expr
    refine .bind typeOf_grows fun _ => .bind (expr_grows t slots o) fun _ => ?_
    split
    · exact .pure
    · exact .bind constructOf_grows fun _ => .bind member_grows fun _ => .pure
  | .assert o _ => .bind (expr_grows t slots o) fun _ => .pure
  | .instanceTest o _ _ => by
    unfold expr
    refine .bind (expr_grows t slots o) fun _ => .bind testTarget_grows fun τ => ?_
    cases τ with
    | null => exact .pure
    | plain id | option id => exact .bind constructOf_grows fun _ => .pure
  | .cast o _ _ => by
    unfold expr
    refine .bind (expr_grows t slots o) fun _ => .bind testTarget_grows fun τ => ?_
    cases τ with
    | null => exact .fail
    | plain id | option id => exact .bind constructOf_grows fun _ => .pure

theorem exprs_grows (t : ClassTable) (slots : Slots) : ∀ es, Grows (exprs t slots es)
  | [] => .pure
  | e :: es => .bind (expr_grows t slots e) fun _ => .bind (exprs_grows t slots es) fun _ => .pure

end

/-! ## Statements -/

mutual

theorem stmt_grows (t : ClassTable) : ∀ (slots : Slots) (start : Nat) s, Grows (stmt t slots start s)
  | slots, _, .define _ _ e _ => .bind (expr_grows t slots e) fun _ => .bind .lift fun _ => .pure
  | slots, _, .return (some e) _ => .bind (expr_grows t slots e) fun _ => .pure
  | _, _, .return none _ => .pure
  | slots, _, .ifThen c b _ => .bind (expr_grows t slots c) fun _ =>
      .bind (stmt_grows t _ _ b) fun _ => .pure
  | slots, _, .ifElse c b o _ => .bind (expr_grows t slots c) fun _ =>
      .bind (stmt_grows t _ _ b) fun _ => .bind (stmt_grows t _ _ o) fun _ => .pure
  | slots, _, .while c b _ => .bind (expr_grows t slots c) fun _ =>
      .bind (stmt_grows t _ _ b) fun _ => .pure
  | _, _, .block ss _ => .bind (stmts_grows t _ _ ss) fun _ => .pure
  | slots, _, .expression e _ => .bind (expr_grows t slots e) fun _ => .pure

theorem stmts_grows (t : ClassTable) :
    ∀ (slots : Slots) (start : Nat) ss, Grows (stmts t slots start ss)
  | _, _, [] => .pure
  | _, _, s :: ss => .bind (stmt_grows t _ _ s) fun _ => .bind (stmts_grows t _ _ ss) fun _ => .pure

end

/-! ## Programs -/

theorem memberChunk_grows {t : ClassTable} {params : List Param} {before : Slots → Lower (List Instr)}
    {body : Option (Stmt Typing)} (h : ∀ slots, Grows (before slots)) :
    Grows (memberChunk t params before body) := by
  refine .bind .lift fun b => .bind (h _) fun _ => ?_
  cases body with
  | none => exact .bind .pure fun _ => .pure
  | some s => exact .bind (stmt_grows t _ _ s) fun _ => .pure

theorem baseCall_grows {t : ClassTable} {parent : Nat} {es : List (Expr Typing)} {slots : Slots} :
    Grows (baseCall t parent es slots) :=
  .bind (exprs_grows t slots es) fun _ => .bind member_grows fun _ => .pure

theorem fieldInitializer_grows {t : ClassTable} {id : TypeId} (d : FieldDecl Typing) :
    Grows (fieldInitializer t id d) := by
  unfold fieldInitializer
  split
  · exact .pure
  · exact .bind fieldOffset_grows fun _ => .bind (expr_grows t _ _) fun _ => .pure

theorem initializer_grows {t : ClassTable} {id : TypeId} {parent : Nat} {d : ClassDecl Typing} :
    Grows (initializer t id parent d) :=
  .bind .lift fun _ => .bind member_grows fun _ =>
    .bind (.mapM fieldInitializer_grows _) fun _ => .pure

theorem method_grows {t : ClassTable} (d : MethodDecl Typing) : Grows (method t d) :=
  .bind (memberChunk_grows fun _ => .pure) fun _ => .bind member_grows fun _ => .pure

theorem constructor_grows {t : ClassTable} {parent : Nat} {d : Option (ConstructorDecl Typing)} :
    Grows (constructor t parent d) := by
  unfold constructor
  have hlast : ∀ chunk, Grows (do return (← member .constructor, Body.compiled chunk)) := fun _ =>
    .bind member_grows fun _ => .pure
  cases d with
  | none => exact (memberChunk_grows fun _ => baseCall_grows).bind hlast
  | some d => exact (memberChunk_grows fun _ => baseCall_grows).bind hlast

theorem classDecl_grows {t : ClassTable} {id : TypeId} {d : ClassDecl Typing} :
    Grows (classDecl t id d) := by
  unfold classDecl
  split
  · exact .fail
  · exact .bind constructOf_grows fun _ => .bind initializer_grows fun _ =>
      .bind (.mapM method_grows _) fun _ => .bind constructor_grows fun _ => .pure

theorem classes_grows {t : ClassTable} {id : TypeId} {ds : List (ClassDecl Typing)} :
    Grows (classes t id ds) := by
  induction ds generalizing id with
  | nil => exact .pure
  | cons d ds ih => exact .bind classDecl_grows fun _ => .bind ih fun _ => .pure

theorem builtin_grows (c : BuiltinClass) : Grows (builtin c) :=
  .bind (.mapM (fun _ => .bind member_grows fun _ => .pure) _) fun _ => .pure

end Lower

end ClassLang
