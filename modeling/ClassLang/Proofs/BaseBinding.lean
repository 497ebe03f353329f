import ClassLang.Proofs.Callees
import ClassLang.Proofs.Construction
import ClassLang.Proofs.Mirror
import ClassLang.Proofs.Receivers
import ClassLang.Proofs.Safety

/-!
# What is used through `base`

A class uses members through `base`: it calls a method, or applies an operator (`Expr.baseUse?`). The check finds
both in the parent of the class, but only the call of a method is bound to what is found there. An operator is
looked up again from the construct of the receiver (`Lower.base_binding`), and so an override that hands it on
to the parent through `base` calls itself (`delegating_operator_unbound`).

The code of the use comes from the places of `Analysis.ExpressionIn`, and the receiver lies below the arguments
when the last instruction is reached (`Machine.receiver_below`). A static call finds its body because there is
one under the key of every method (`resolve_method`), and a virtual one because no run of a checked program
stops for want of it (`run_cases`).
-/

namespace ClassLang

/-- The key of the member that an expression uses through `base`: of the method that is called, or of the
operator that is applied. -/
def Expr.baseUse? {ν : Type} : Expr ν → Option MemberKey
  | .call (.member (.base _) x _) _ _ => some (.named x.name)
  | .binary op (.base _) _ _ => some (.binary op)
  | .unary op (.base _) _ => some (.unary op)
  | _ => none

/-- The instruction that uses a member through `base`. -/
def Instr.ofBase (construct member : Nat) : MemberKey → Instr
  | .named _ => .invoke construct member
  | _ => .callVirtual construct member

namespace BaseLemmas

variable {a : Analysis} {image : Image} {code : Array Instr} {cls index : Nat} {e : Expr Typing}
  {key : MemberKey}

/-- Behind `base` stand the members of the parent. -/
theorem base_typed {env : Environment} {ρ τ : Ty} {n : Typing} (henv : env.Proper a.classes cls ρ)
    (h : Typed env (.base n) τ) : ∃ parent, a.classes.parent? cls = some parent ∧ τ = .plain parent := by
  cases h with
  | base hthis hparent =>
    rw [henv.inside.thisClass, Option.some_inj] at hthis
    rw [henv.inside.classes, ← hthis] at hparent
    exact ⟨_, hparent, rfl⟩

/-- A parent is neither the class of numbers nor that of truth values. -/
theorem parent_not_dedicated (W : WellTyped a) {parent : TypeId} (h : a.classes.parent? cls = some parent) :
    Ty.plain parent ≠ .number ∧ Ty.plain parent ≠ .boolean := by
  rcases W.parent_inheritable h with rfl | rfl | ⟨hge, _⟩
  · decide
  · decide
  · refine ⟨?_, ?_⟩ <;> rintro ⟨⟩ <;> exact absurd hge (by decide)

/-- A use through `base` is the use of a member that the parent has or inherits. Its code loads the receiver,
computes the arguments, and uses the member. -/
theorem standing_baseUse (W : WellTyped a) (A : Assembled a image) (h : a.StandingIn image cls code index e)
    (huse : e.baseUse? = some key) :
    ∃ parent owner meth member args, a.classes.parent? cls = some parent ∧
      a.classes.lookupMethod? parent key = some (owner, meth) ∧ image.members[member]? = some key ∧
      image.Computes meth.params.length args ∧ e.width = args.length + 2 ∧
      CodeAt code index (.load 0 :: args ++ [.ofBase (TypeId.index parent) member key]) := by
  obtain ⟨ρ, env, τ, is, hcls, henv, he, hc, hcode⟩ := h
  have hwidth := hc.length_eq
  unfold Expr.baseUse? at huse
  split at huse <;> cases huse
  · -- The call of a method.
    cases he with
    | call hbase _ hlookup _ hlen hes hfit =>
      obtain ⟨parent, hparent, heq⟩ := base_typed henv hbase
      cases heq
      rw [henv.inside.classes] at hlookup hfit
      cases hc with
      | call hload hnote hk hm hcs =>
        cases hload
        cases hbase.note_type.symm.trans hnote
        obtain ⟨_, rfl⟩ := TypeId.ne_unit_of_construct hk
        have hargs := exprs_computes W A hcls henv _ hlen hes hcs
        rw [hlen, List.Forall₂.length_eq hfit] at hargs
        exact ⟨_, _, _, _, _, hparent, hlookup, hm, hargs, by simp [← hwidth], hcode⟩
  · -- An operator with two operands. A dedicated instruction is for numbers and truth values only.
    cases he with
    | binary hbase hr hclass hlookup =>
      obtain ⟨parent, hparent, heq⟩ := base_typed henv hbase
      subst heq
      obtain ⟨hnumber, hboolean⟩ := parent_not_dedicated W hparent
      obtain ⟨heq, _⟩ : Ty.plain parent = .plain _ ∧ _ := hclass
      cases heq
      rw [henv.inside.classes] at hlookup
      cases hc with
      | primitive _ _ hnote _ hd =>
        cases hbase.note_type.symm.trans hnote
        rcases CallsLemmas.dedicated_cases hd with ⟨h, _⟩ | ⟨h, _⟩
        · exact absurd h hnumber
        · exact absurd h hboolean
      | binary hload hcr hnote _ _ hk hm =>
        cases hload
        cases hbase.note_type.symm.trans hnote
        obtain ⟨_, rfl⟩ := TypeId.ne_unit_of_construct hk
        have hargs := expr_computes W A hcls henv _ hr hcr
        rw [← (W.operator_params hlookup).1 _ rfl] at hargs
        exact ⟨_, _, _, _, _, hparent, hlookup, hm, hargs, by simp [← hwidth], hcode⟩
  · -- An operator with one operand.
    cases he with
    | unary hbase _ hlookup =>
      obtain ⟨parent, hparent, heq⟩ := base_typed henv hbase
      cases heq
      obtain ⟨hnumber, hboolean⟩ := parent_not_dedicated W hparent
      rw [henv.inside.classes] at hlookup
      cases hc with
      | unaryPrimitive _ hnote hd =>
        cases hbase.note_type.symm.trans hnote
        unfold Lower.isDedicatedUnary at hd
        split at hd
        · exact absurd (of_decide_eq_true hd) hnumber
        · exact absurd (of_decide_eq_true hd) hboolean
      | unary hload hnote _ hk hm =>
        cases hload
        cases hbase.note_type.symm.trans hnote
        obtain ⟨_, rfl⟩ := TypeId.ne_unit_of_construct hk
        refine ⟨_, _, _, _, [], hparent, hlookup, hm, ?_, by simp [← hwidth], hcode⟩
        rw [(W.operator_params hlookup).2 _ rfl]
        exact .nil

/-- A machine that a checked program brings about stops for an ordinary fault only. -/
theorem fault_ordinary (W : WellTyped a) (A : Assembled a image) {bound : Nat} {console console' : Console}
    {m : Machine} {cause : Fault} (hrun : image.run bound console = .unfinished m)
    (hstep : m.step image = .fault cause console') : cause.Ordinary := by
  have hend : image.run (bound + 1) console = .faulted cause console' := by
    rw [Image.run, Machine.run_add hrun, Machine.run, hstep]
  rcases run_cases W A (bound + 1) console with ⟨m', hrun', _⟩ | ⟨e, he, hregular⟩
  · rw [hend] at hrun'
    cases hrun'
  · rw [hend] at he
    cases he
    exact hregular

end BaseLemmas

open BaseLemmas

/-- What a class uses through `base` is found in its parent, by the class table as by the image. The call of a
method calls the body found there on the receiver, whatever the receiver is. An operator calls, on the
receiver, the body that is found from the construct of the receiver. -/
theorem Lower.base_binding {p : Program Span} {a : Analysis} {image : Image}
    (hcheck : Check.program p = .ok a) (hlower : Lower.image a = .ok image) {i : Nat} {chunk : Chunk}
    {index : Nat} {e : Expr Typing} {key : MemberKey} (hat : a.ExpressionIn image i chunk index e)
    (huse : e.baseUse? = some key) {console : Console} {bound : Nat} {m : Machine}
    (hrun : image.run bound console = .unfinished m) (hcode : m.frame.code = chunk.code)
    (hip : m.frame.ip + 1 = index + e.width) :
    ∃ parent owner meth member body, a.classes.parent? (TypeId.first + i) = some parent ∧
      a.classes.lookupMethod? parent key = some (owner, meth) ∧ image.memberId? key = some member ∧
      image.resolve? (TypeId.index parent) member = some (TypeId.index owner, body) ∧
      BodyOf a image owner key body ∧
      ((∃ name, key = .named name) → ∃ rest, m.called? image = some (body, m.frame.receiver :: rest)) ∧
      ((∀ name, key ≠ .named name) → ∀ own, m.heap.construct? m.frame.receiver = some own →
        ∃ owner' body' rest, image.resolve? own member = some (owner', body') ∧
          m.called? image = some (body', m.frame.receiver :: rest)) := by
  have W := Check.program_wellTyped hcheck
  have A := Lower.image_assembled hlower
  obtain ⟨parent, owner, meth, member, args, hparent, hlookup, hmember, hargs, hwidth, huseCode⟩ :=
    standing_baseUse W A (hat.standing W A) huse
  have hreceiver := Machine.receiver_below W A hrun hcode huseCode hargs (by omega)
  have hinstr : m.frame.code[m.frame.ip]? = some (.ofBase (TypeId.index parent) member key) := by
    rw [hcode, show m.frame.ip = index + (.load 0 :: args).length by rw [List.length_cons]; omega]
    exact huseCode.right.head
  have hinheritable := W.parent_inheritable hparent
  have hkey : key ≠ .initializer := by
    rintro rfl
    unfold Expr.baseUse? at huse
    split at huse <;> cases huse
  obtain ⟨body, hresolve, hbody, hcount⟩ := resolve_method W A (W.inheritable_lt hinheritable)
    hinheritable.ne_unit hmember hkey hlookup
  refine ⟨parent, owner, meth, member, body, hparent, hlookup, memberId_of_member A hmember, hresolve, hbody,
    ?_, ?_⟩
  · rintro ⟨name, rfl⟩
    exact Machine.invoke_called hinstr hresolve hcount hreceiver
  · intro hnot own hown
    have hvirtual : Instr.ofBase (TypeId.index parent) member key =
        .callVirtual (TypeId.index parent) member := by
      cases key <;> first | rfl | exact absurd rfl (hnot _)
    rw [hvirtual] at hinstr
    rcases Machine.callVirtual_called hinstr hresolve hcount hreceiver hown with
      hcalled | ⟨_, hfault, ⟨_, _, rfl⟩ | ⟨_, rfl⟩⟩
    · exact hcalled
    · exact (fault_ordinary W A hrun hfault).elim
    · exact (fault_ordinary W A hrun hfault).elim

/-- A class that overrides a method and an operator of its parent, and uses both through `base`. -/
def delegating : String :=
  "class A : IO\n\x7b\n public tag() : boolean = true\n\n public unary -() : boolean = true\n\x7d\n\n" ++
    "class Main : A\n\x7b\n public override tag() : boolean = false\n\n" ++
    " public override unary -() : boolean = false\n\n" ++
    " public new()\n \x7b\n this.out(base.tag())\n this.out(-base)\n \x7d\n\x7d\n"

/-- The body of a member that returns a truth value at once. -/
def constantly (b : Bool) : Body :=
  .compiled ⟨#[if b then .pushTrue else .pushFalse, .return, .pushNull, .return], 1, 1⟩

/-- The constructor of the entry class comes to the call in 22 steps and to the operator in 29. The operator
calls the body of the entry class, and not that of the parent. -/
theorem delegating_reaches : ∃ p a image chunk m, Program.ofSource delegating = .ok p ∧
    Check.program p = .ok a ∧ Lower.image a = .ok image ∧
    (∃ index e m, a.ExpressionIn image 1 chunk index e ∧ e.baseUse? = some (.named "tag") ∧
      image.run 22 (.ofText "") = .unfinished m ∧ m.frame.code = chunk.code ∧
      m.frame.ip + 1 = index + e.width) ∧
    (∃ index e, a.ExpressionIn image 1 chunk index e ∧ e.baseUse? = some (.unary .negate) ∧
      image.run 29 (.ofText "") = .unfinished m ∧ m.frame.code = chunk.code ∧
      m.frame.ip + 1 = index + e.width) ∧
    a.classes.parent? (TypeId.first + 1) = some 6 ∧ image.memberId? (.unary .negate) = some 13 ∧
    (image.resolve? (TypeId.index 6) 13).map Prod.snd = some (constantly true) ∧
    (m.called? image).map Prod.fst = some (constantly false) := by
  have hrun : (Image.ofSource delegating).toOption.bind (fun (image : Image) =>
      (Analysis.ofSource delegating).toOption.bind fun (a : Analysis) =>
      a.program.classes[1]?.bind fun (d : ClassDecl Typing) =>
      d.constructors[0]?.bind fun (cd : ConstructorDecl Typing) =>
      (image.construct? 6).bind fun c => (c.bodies.find? 0).bind fun body => body.chunk?.bind fun chunk =>
      ((cd.body.expressions cd.baseWidth).find? fun q : Nat × Expr Typing =>
        q.2.baseUse? == some (MemberKey.named "tag")).bind fun call =>
      ((cd.body.expressions cd.baseWidth).find? fun q : Nat × Expr Typing =>
        q.2.baseUse? == some (MemberKey.unary .negate)).bind fun operator =>
      (image.run 22 (.ofText "")).machine?.bind fun m₁ => (image.run 29 (.ofText "")).machine?.bind fun m₂ =>
      some (decide (image.members[0]? = some MemberKey.constructor ∧ m₁.frame.code = chunk.code ∧
        m₁.frame.ip + 1 = call.1 + call.2.width ∧ m₂.frame.code = chunk.code ∧
        m₂.frame.ip + 1 = operator.1 + operator.2.width ∧ a.classes.parent? (TypeId.first + 1) = some 6 ∧
        image.memberId? (.unary .negate) = some 13 ∧
        (image.resolve? (TypeId.index 6) 13).map Prod.snd = some (constantly true) ∧
        (m₂.called? image).map Prod.fst = some (constantly false)))) = some true := by decide +kernel
  simp only [↓Option.bind_eq_some_iff, Option.some.injEq, toOption_eq_some,
    RunResult.machine?_eq_some, Body.chunk?_eq_some, decide_eq_true_eq] at hrun
  obtain ⟨image, himage, a, ha, d, hd, cd, hcd, c, hc, _, hbody, chunk, rfl, call, hcall, operator, hoperator,
    m₁, hm₁, m₂, hm₂, hctor, hcode₁, hip₁, hcode₂, hip₂, hparent, hmember, hfound, hcalled⟩ := hrun
  obtain ⟨p, a', hp, ha', hcheck, hlower⟩ := Image.ofSource_stages himage
  obtain rfl : a' = a := Except.ok.inj (ha'.symm.trans ha)
  have hin {q : Nat × Expr Typing} (hq : q ∈ cd.body.expressions cd.baseWidth) :
      a'.ExpressionIn image 1 chunk q.1 q.2 :=
    ⟨d, c, hd, hc, .constructor (List.mem_of_getElem? hcd) ⟨0, hctor, hbody⟩ (List.mem_append_right _ hq)⟩
  have huse : call.2.baseUse? = some (.named "tag") := by simpa using List.find?_some hcall
  have huse' : operator.2.baseUse? = some (.unary .negate) := by simpa using List.find?_some hoperator
  exact ⟨p, a', image, chunk, m₂, hp, hcheck, hlower,
    ⟨_, _, m₁, hin (List.mem_of_find?_eq_some hcall), huse, hm₁, hcode₁, hip₁⟩,
    ⟨_, _, hin (List.mem_of_find?_eq_some hoperator), huse', hm₂, hcode₂, hip₂⟩, hparent, hmember, hfound,
    hcalled⟩

/-- The operator on `base` does not call what is found in the parent. -/
theorem delegating_operator_unbound : ∃ p a image chunk index e m parent member found,
    Program.ofSource delegating = .ok p ∧ Check.program p = .ok a ∧ Lower.image a = .ok image ∧
    a.ExpressionIn image 1 chunk index e ∧ e.baseUse? = some (.unary .negate) ∧
    image.run 29 (.ofText "") = .unfinished m ∧ m.frame.code = chunk.code ∧
    m.frame.ip + 1 = index + e.width ∧ a.classes.parent? (TypeId.first + 1) = some parent ∧
    image.memberId? (.unary .negate) = some member ∧
    image.resolve? (TypeId.index parent) member = some found ∧
    ∀ args, m.called? image ≠ some (found.2, args) := by
  obtain ⟨p, a, image, chunk, m, hp, hcheck, hlower, _, ⟨index, e, hat, huse, hrun, hcode, hip⟩, hparent,
    hmember, hfound, hcalled⟩ := delegating_reaches
  obtain ⟨found, hfound, hbody⟩ := Option.map_eq_some_iff.mp hfound
  refine ⟨p, a, image, chunk, index, e, m, _, _, found, hp, hcheck, hlower, hat, huse, hrun, hcode, hip,
    hparent, hmember, hfound, fun args hargs => ?_⟩
  rw [hargs, Option.map_some, hbody] at hcalled
  cases hcalled

/-- The call of a method on `base` calls what is found in the parent. -/
theorem delegating_call_bound : ∃ p a image chunk index e m, Program.ofSource delegating = .ok p ∧
    Check.program p = .ok a ∧ Lower.image a = .ok image ∧ a.ExpressionIn image 1 chunk index e ∧
    e.baseUse? = some (.named "tag") ∧ image.run 22 (.ofText "") = .unfinished m ∧
    m.frame.code = chunk.code ∧ m.frame.ip + 1 = index + e.width ∧
    ∃ parent owner meth member body rest, a.classes.parent? (TypeId.first + 1) = some parent ∧
      a.classes.lookupMethod? parent (.named "tag") = some (owner, meth) ∧
      image.resolve? (TypeId.index parent) member = some (TypeId.index owner, body) ∧
      m.called? image = some (body, m.frame.receiver :: rest) := by
  obtain ⟨p, a, image, chunk, _, hp, hcheck, hlower, ⟨index, e, m, hat, huse, hrun, hcode, hip⟩, _⟩ :=
    delegating_reaches
  obtain ⟨parent, owner, meth, member, body, hparent, hlookup, _, hresolve, _, hcalled, _⟩ :=
    Lower.base_binding hcheck hlower hat huse hrun hcode hip
  obtain ⟨rest, hrest⟩ := hcalled ⟨_, rfl⟩
  exact ⟨p, a, image, chunk, index, e, m, hp, hcheck, hlower, hat, huse, hrun, hcode, hip, parent, owner,
    meth, member, body, rest, hparent, hlookup, hresolve, hrest⟩

end ClassLang
