import ClassLang.Proofs.Places
import ClassLang.Proofs.Statements

/-!
# Where expressions stand

The expressions in a tree whose code starts at an index, with the indices of their own code
(`Expr.places`, `Stmt.expressions`, `fieldExpressions`). The ones that stand in a program are well typed
there, and their code is in the chunk at that place (`Analysis.ExpressionAt.standing`).
-/

namespace ClassLang

variable {ν : Type}

namespace Expr

mutual

/-- The expressions in an expression whose code starts at an index, itself among them. The target of a
call or of an assignment has no code of its own, but its object has. -/
def places (start : Nat) : Expr ν → List (Nat × Expr ν)
  | .member e x n => (start, .member e x n) :: places start e
  | .call (.member o x n) es n' => (start, .call (.member o x n) es n') ::
      (places start o ++ placesAll (start + o.width) es)
  | .new c es n => (start, .new c es n) :: placesAll (start + 2) es
  | .assign (.name x n) v n' => (start, .assign (.name x n) v n') :: places start v
  | .assign (.member o x n) v n' => (start, .assign (.member o x n) v n') ::
      (places start o ++ places (start + o.width) v)
  | .binary op l r n => (start, .binary op l r n) :: (places start l ++ places (start + l.width) r)
  | .unary op e n => (start, .unary op e n) :: places start e
  | .assert e n => (start, .assert e n) :: places start e
  | .instanceTest e w n => (start, .instanceTest e w n) :: places start e
  | .cast e w n => (start, .cast e w n) :: places start e
  | e => [(start, e)]

/-- The expressions in several expressions, whose code starts at an index. -/
def placesAll (start : Nat) : List (Expr ν) → List (Nat × Expr ν)
  | [] => []
  | e :: es => places start e ++ placesAll (start + e.width) es

end

end Expr

namespace Stmt

mutual

/-- The expressions in a statement whose code starts at an index. -/
def expressions (start : Nat) : Stmt ν → List (Nat × Expr ν)
  | .define _ _ e _ | .return (some e) _ | .expression e _ => e.places start
  | .return none _ => []
  | .ifThen c b _ => c.places start ++ expressions (start + c.width + 1) b
  | .ifElse c b o _ => c.places start ++ (expressions (start + c.width + 1) b ++
      expressions (start + c.width + 1 + b.width + 1) o)
  | .while c b _ => c.places start ++ expressions (start + c.width + 1) b
  | .block ss _ => expressionsAll start ss

/-- The expressions in several statements, whose code starts at an index. -/
def expressionsAll (start : Nat) : List (Stmt ν) → List (Nat × Expr ν)
  | [] => []
  | s :: ss => expressions start s ++ expressionsAll (start + s.width) ss

end

end Stmt

/-- The expressions in the initializers of fields, whose code starts at an index. In front of a value stands
the instruction that loads the object, and behind it two that store the value. -/
def fieldExpressions (start : Nat) : List (FieldDecl ν) → List (Nat × Expr ν)
  | [] => []
  | d :: ds =>
    match d.initializer with
    | none => fieldExpressions start ds
    | some e => e.places (start + 1) ++ fieldExpressions (start + e.width + 3) ds

/-- The arguments of an object in a field. -/
example : fieldExpressions 3 [⟨.everyone, ⟨"x", .none⟩, .null .none, some (.assert (.null ()) ()), .none⟩] =
    [(4, .assert (.null ()) ()), (4, .null ())] := rfl

/-! ## Typing and code -/

/-- The code of a well-typed expression in the class `cls` stands at an index. -/
def Analysis.StandingIn (a : Analysis) (image : Image) (cls : Nat) (code : Array Instr) (index : Nat)
    (e : Expr Typing) : Prop :=
  ∃ ρ env τ is, cls < a.classes.size ∧ env.Proper a.classes cls ρ ∧ Typed env e τ ∧
    Emits image.pools a.classes (LocalsRel.names env.visible) e is ∧ CodeAt code index is

/-- The code of a well-typed expression in a class stands at an index. -/
def Analysis.Standing (a : Analysis) (image : Image) (code : Array Instr) (index : Nat) (e : Expr Typing) :
    Prop :=
  ∃ cls, a.StandingIn image cls code index e

section

variable {a : Analysis} {image : Image} {code : Array Instr} {cls : Nat} {ρ : Ty}

mutual

/-- The expressions in an expression that stands somewhere stand at their places. -/
theorem expr_standing (hcls : cls < a.classes.size) {env : Environment}
    (henv : env.Proper a.classes cls ρ) : ∀ (e : Expr Typing) {τ : Ty} {start : Nat} {is : List Instr},
      Typed env e τ → Emits image.pools a.classes (LocalsRel.names env.visible) e is →
      CodeAt code start is → ∀ p ∈ e.places start, a.StandingIn image cls code p.1 p.2
  | .number .., _, _, _, he, hc, hcode | .string .., _, _, _, he, hc, hcode
  | .boolean .., _, _, _, he, hc, hcode | .null .., _, _, _, he, hc, hcode
  | .name .., _, _, _, he, hc, hcode | .this .., _, _, _, he, hc, hcode
  | .base .., _, _, _, he, hc, hcode =>
    List.forall_mem_singleton.mpr ⟨ρ, env, _, _, hcls, henv, he, hc, hcode⟩
  | .member e _ _, _, _, _, he, hc, hcode => by
    refine List.forall_mem_cons.mpr ⟨⟨ρ, env, _, _, hcls, henv, he, hc, hcode⟩, ?_⟩
    cases he with
    | member he =>
      cases hc with
      | member hc => exact expr_standing hcls henv e he hc hcode.left
  | .call e es _, _, _, _, he, hc, hcode => by
    cases e with
    | member o _ _ =>
      refine List.forall_mem_cons.mpr ⟨⟨ρ, env, _, _, hcls, henv, he, hc, hcode⟩, ?_⟩
      cases he with
      | call ho _ _ _ hlen hes =>
        cases hc with
        | call hc _ _ _ hcs =>
          exact List.forall_mem_append.mpr ⟨expr_standing hcls henv o ho hc hcode.left.left,
            exprs_standing hcls henv es hlen hes hcs (hc.length_eq ▸ hcode.left.right)⟩
    | _ => cases he
  | .new _ es _, _, _, _, he, hc, hcode => by
    refine List.forall_mem_cons.mpr ⟨⟨ρ, env, _, _, hcls, henv, he, hc, hcode⟩, ?_⟩
    cases he with
    | new _ _ _ hlen hes =>
      cases hc with
      | new _ _ _ hcs => exact exprs_standing hcls henv es hlen hes hcs hcode.left.right
  | .assign e v _, _, _, _, he, hc, hcode => by
    cases e with
    | name _ _ =>
      refine List.forall_mem_cons.mpr ⟨⟨ρ, env, _, _, hcls, henv, he, hc, hcode⟩, ?_⟩
      cases he with
      | assignName _ hv =>
        cases hc with
        | assignName _ hc => exact expr_standing hcls henv v hv hc hcode.left
    | member o _ _ =>
      refine List.forall_mem_cons.mpr ⟨⟨ρ, env, _, _, hcls, henv, he, hc, hcode⟩, ?_⟩
      cases he with
      | assignMember ho _ _ _ _ hv =>
        cases hc with
        | assignMember hc _ _ hc' =>
          exact List.forall_mem_append.mpr ⟨expr_standing hcls henv o ho hc hcode.left.left,
            expr_standing hcls henv v hv hc' (hc.length_eq ▸ hcode.left.right)⟩
    | _ => cases he
  | .binary _ l r _, _, _, _, he, hc, hcode => by
    refine List.forall_mem_cons.mpr ⟨⟨ρ, env, _, _, hcls, henv, he, hc, hcode⟩, ?_⟩
    cases he with
    | binary hl hr =>
      cases hc with
      | primitive hc hc' | binary hc hc' =>
        exact List.forall_mem_append.mpr ⟨expr_standing hcls henv l hl hc hcode.left.left,
          expr_standing hcls henv r hr hc' (hc.length_eq ▸ hcode.left.right)⟩
  | .unary _ e _, _, _, _, he, hc, hcode => by
    refine List.forall_mem_cons.mpr ⟨⟨ρ, env, _, _, hcls, henv, he, hc, hcode⟩, ?_⟩
    cases he with
    | unary he =>
      cases hc with
      | unaryPrimitive hc | unary hc => exact expr_standing hcls henv e he hc hcode.left
  | .assert e _, _, _, _, he, hc, hcode => by
    refine List.forall_mem_cons.mpr ⟨⟨ρ, env, _, _, hcls, henv, he, hc, hcode⟩, ?_⟩
    cases he with
    | assert he =>
      cases hc with
      | assert hc => exact expr_standing hcls henv e he hc hcode.left
  | .instanceTest e _ _, _, _, _, he, hc, hcode => by
    refine List.forall_mem_cons.mpr ⟨⟨ρ, env, _, _, hcls, henv, he, hc, hcode⟩, ?_⟩
    cases he with
    | instanceTest he =>
      cases hc with
      | nullTest hc | instanceTest hc => exact expr_standing hcls henv e he hc hcode.left
  | .cast e _ _, _, _, _, he, hc, hcode => by
    refine List.forall_mem_cons.mpr ⟨⟨ρ, env, _, _, hcls, henv, he, hc, hcode⟩, ?_⟩
    cases he with
    | cast he =>
      cases hc with
      | cast hc => exact expr_standing hcls henv e he hc hcode.left

theorem exprs_standing (hcls : cls < a.classes.size) {env : Environment}
    (henv : env.Proper a.classes cls ρ) : ∀ (es : List (Expr Typing)) {τs : List Ty} {start : Nat}
      {codes : List (List Instr)}, es.length = τs.length → (∀ p ∈ es.zip τs, Typed env p.1 p.2) →
      List.Forall₂ (Emits image.pools a.classes (LocalsRel.names env.visible)) es codes →
      CodeAt code start codes.flatten → ∀ p ∈ Expr.placesAll start es, a.StandingIn image cls code p.1 p.2
  | [], _, _, _, _, _, _, _ => by simp [Expr.placesAll]
  | e :: es, τs, start, _, hlen, hes, hcs, hcode => by
    match τs with
    | τ :: τs =>
      rw [List.zip_cons_cons, List.forall_mem_cons] at hes
      cases hcs with
      | cons hc hcs =>
        rw [List.flatten_cons] at hcode
        exact List.forall_mem_append.mpr ⟨expr_standing hcls henv e hes.1 hc hcode.left,
          exprs_standing hcls henv es (Nat.succ.inj hlen) hes.2 hcs (hc.length_eq ▸ hcode.right)⟩

end

mutual

/-- The expressions in a well-typed statement stand at their places. -/
theorem stmt_standing {room : Nat} (W : WellTyped a) (hcls : cls < a.classes.size) :
    ∀ (st : Stmt Typing) {env env' : Environment} {start : Nat} {is : List Instr},
      env.Proper a.classes cls ρ → StmtTyped env st env' →
      EmitsStmt image.pools a.classes room (LocalsRel.names env.visible) start st is →
      CodeAt code start is → ∀ p ∈ st.expressions start, a.StandingIn image cls code p.1 p.2
  | .define x w e _, _, _, _, _, henv, hst, hc, hcode => by
    cases hst with
    | define he =>
      cases hc with
      | define hc => exact expr_standing hcls henv e he hc hcode.left
  | .return (some e) _, _, _, _, _, henv, hst, hc, hcode => by
    cases hst with
    | «return» he =>
      cases hc with
      | «return» hc => exact expr_standing hcls henv e he hc hcode.left
  | .return none _, _, _, _, _, _, _, _, _ => by simp [Stmt.expressions]
  | .ifThen c b _, _, _, _, _, henv, hst, hc, hcode => by
    obtain ⟨_, _, hcond, hb, htest, hbody⟩ := hc.ifThen_parts hcode
    cases hst with
    | ifThen he hst =>
      exact List.forall_mem_append.mpr ⟨expr_standing hcls henv c he hcond htest.left,
        stmt_standing W hcls b henv.enter hst (by simpa using hb) hbody⟩
  | .ifElse c b o _, _, _, _, _, henv, hst, hc, hcode => by
    obtain ⟨_, _, _, hcond, hb, ho, htest, hbody, hother⟩ := hc.ifElse_parts hcode
    cases hst with
    | ifElse he hst hst' =>
      exact List.forall_mem_append.mpr ⟨expr_standing hcls henv c he hcond htest.left,
        List.forall_mem_append.mpr ⟨stmt_standing W hcls b henv.enter hst (by simpa using hb) hbody,
          stmt_standing W hcls o henv.enter hst' (by simpa using ho) hother.tail⟩⟩
  | .while c b _, _, _, _, _, henv, hst, hc, hcode => by
    obtain ⟨_, _, hcond, hb, htest, hbody, _⟩ := hc.while_parts hcode
    cases hst with
    | «while» he hst =>
      exact List.forall_mem_append.mpr ⟨expr_standing hcls henv c he hcond htest.left,
        stmt_standing W hcls b henv.enter hst (by simpa using hb) hbody⟩
  | .block ss _, _, _, _, _, henv, hst, hc, hcode => by
    cases hst with
    | block hss =>
      cases hc with
      | block hcs => exact stmts_standing W hcls ss henv.enter hss (by simpa using hcs) hcode
  | .expression e _, _, _, _, _, henv, hst, hc, hcode => by
    cases hst with
    | expression he =>
      cases hc with
      | expression hc => exact expr_standing hcls henv e he hc hcode.left

theorem stmts_standing {room : Nat} (W : WellTyped a) (hcls : cls < a.classes.size) :
    ∀ (ss : List (Stmt Typing)) {env env' : Environment} {start : Nat} {is : List Instr},
      env.Proper a.classes cls ρ → StmtsTyped env ss env' →
      EmitsStmts image.pools a.classes room (LocalsRel.names env.visible) start ss is →
      CodeAt code start is → ∀ p ∈ Stmt.expressionsAll start ss, a.StandingIn image cls code p.1 p.2
  | [], _, _, _, _, _, _, _, _ => by simp [Stmt.expressionsAll]
  | st :: ss, _, _, _, _, henv, hst, hc, hcode => by
    cases hst with
    | cons hst hss =>
      cases hc with
      | cons hc hcs =>
        obtain ⟨henv', _, hnames⟩ := hst.grows W hcls henv
        rw [← hnames, hc.length_eq] at hcs
        exact List.forall_mem_append.mpr ⟨stmt_standing W hcls st henv hst hc hcode.left,
          stmts_standing W hcls ss henv' hss hcs (hc.length_eq ▸ hcode.right)⟩

end

/-- The expressions in the initializers of fields stand at their places. -/
theorem fields_standing (hcls : cls < a.classes.size) {r : ClassRecord} {ds : List (FieldDecl Typing)}
    {codes : List (List Instr)} (hds : ∀ d ∈ ds, FieldTyped a.classes cls r d)
    (hcodes : List.Forall₂ (EmitsField image.pools a.classes cls) ds codes) {start : Nat}
    (hcode : CodeAt code start codes.flatten) :
    ∀ p ∈ fieldExpressions start ds, a.StandingIn image cls code p.1 p.2 := by
  induction hcodes generalizing start with
  | nil => simp [fieldExpressions]
  | @cons d code₁ ds codes hc _ ih =>
    obtain ⟨⟨f, _, hinit⟩, hds⟩ := List.forall_mem_cons.mp hds
    rw [List.flatten_cons] at hcode
    cases hc with
    | blank hnone =>
      rw [fieldExpressions, hnone]
      exact ih hds hcode
    | @initial e owner g is hsome _ hc =>
      obtain ⟨υ, he, _⟩ := hinit _ hsome
      have hlen : (Instr.load 0 :: is ++ [Instr.setField g.offset, .pop]).length = e.width + 3 := by
        simp [hc.length_eq]
      have hrest := hcode.right
      rw [hlen, ← Nat.add_assoc] at hrest
      rw [fieldExpressions, hsome]
      exact List.forall_mem_append.mpr
        ⟨expr_standing hcls (a.classes.inside_proper cls _) e he hc hcode.left.left.tail, ih hds hrest⟩

end

/-! ## The expressions of a program -/

/-- An expression of a class, whose construct is `c`, with the chunk that has its code and the index at which
the code starts. -/
inductive ClassDecl.ExpressionAt (d : ClassDecl Typing) (image : Image) (c : Construct) (chunk : Chunk)
    (index : Nat) (e : Expr Typing) : Prop
  | method {md : MethodDecl Typing} :
      md ∈ d.methods → image.ChunkUnder c md.name.key chunk → (index, e) ∈ md.body.expressions 0 →
      ExpressionAt d image c chunk index e
  | constructor {cd : ConstructorDecl Typing} :
      cd ∈ d.constructors → image.ChunkUnder c .constructor chunk →
      (index, e) ∈ Expr.placesAll 1 (cd.baseArguments.getD []) ++ cd.body.expressions cd.baseWidth →
      ExpressionAt d image c chunk index e
  | initializer :
      image.ChunkUnder c .initializer chunk → (index, e) ∈ fieldExpressions 3 d.fields →
      ExpressionAt d image c chunk index e

/-- An expression of the class `i` of a program. -/
def Analysis.ExpressionIn (a : Analysis) (image : Image) (i : Nat) (chunk : Chunk) (index : Nat)
    (e : Expr Typing) : Prop :=
  ∃ d c, a.program.classes[i]? = some d ∧ image.construct? (Builtin.count + i) = some c ∧
    d.ExpressionAt image c chunk index e

/-- An expression of a program, the chunk that has its code, and the index at which the code starts. -/
def Analysis.ExpressionAt (a : Analysis) (image : Image) (chunk : Chunk) (index : Nat) (e : Expr Typing) : Prop :=
  ∃ i, a.ExpressionIn image i chunk index e

/-- The expressions of a class stand where its trees tell. -/
theorem Analysis.ExpressionIn.standing {a : Analysis} {image : Image} {chunk : Chunk} {i index : Nat}
    {e : Expr Typing} (W : WellTyped a) (A : Assembled a image) (h : a.ExpressionIn image i chunk index e) :
    a.StandingIn image (TypeId.first + i) chunk.code index e := by
  obtain ⟨d, c, hd, hc, h⟩ := h
  cases h with
  | @method md hmd hunder hp =>
    obtain ⟨_, r, ht⟩ := W.each i d hd
    obtain ⟨meth, hm, hlen, _, env, env', hbound, hbody⟩ := ht.methods _ hmd
    obtain ⟨is, hemits, hcode, _⟩ := (method_chunk A hd ht hc hmd hunder).body_at
    rw [← hbound.names hlen] at hemits
    exact stmt_standing W (ClassTable.lt_of_record ht.record) md.body
      (hbound.proper (W.params_named ht.record hm)) hbody hemits hcode _ hp
  | @constructor cd hcd hunder hp =>
    obtain ⟨_, r, ht⟩ := W.each i d hd
    have hid := ClassTable.lt_of_record ht.record
    obtain ⟨_, before, _, hbase, hchunk⟩ := constructor_chunk A hd ht hc hcd hunder
    have hctor := ht.constructor
    rw [Lower.LowerableLemmas.constructors_head ht.registered hcd] at hctor
    obtain ⟨meth, base, hm, _, hlen, env, env', hbound, ⟨τs, hτs, hes, _⟩, hbody⟩ := hctor
    have henv := hbound.proper (W.params_named ht.record hm)
    obtain ⟨is, hemits, hcode, _⟩ := hchunk.body_at
    obtain ⟨_, hwhole, _⟩ := hchunk.code
    have hfront : CodeAt chunk.code 0 before := (CodeAt.whole hwhole).left.left
    rw [hbase.length_eq] at hemits hcode
    have hnames : LocalsRel.names env.visible = paramNames cd.params := hbound.names hlen
    rw [← hnames] at hbase hemits
    cases hbase with
    | call hcs _ =>
      rcases List.mem_append.mp hp with hp | hp
      · exact exprs_standing hid henv _ hτs hes hcs hfront.left.tail _ hp
      · exact stmt_standing W hid cd.body henv hbody hemits hcode _ hp
  | initializer hunder hp =>
    obtain ⟨_, r, ht⟩ := W.each i d hd
    obtain ⟨c', hc', hemits⟩ := A.user i d hd
    rw [hc] at hc'
    cases hc'
    obtain ⟨_, parent, _, _, _, htable⟩ := hemits.bodies
    obtain ⟨m, hm, hfind⟩ := hunder
    have himpl := htable.found m _ _ hm hfind
    generalize hkey : MemberKey.initializer = key at himpl
    cases himpl with
    | initializer _ hcodes hcode =>
      exact fields_standing (ClassTable.lt_of_record ht.record) ht.fields hcodes
        (CodeAt.whole hcode).left.right _ hp
    | @method md _ => exact absurd hkey (md.name.key_ne rfl)
    | constructor | implicitConstructor => cases hkey

/-- The expressions of a program stand where its trees tell. -/
theorem Analysis.ExpressionAt.standing {a : Analysis} {image : Image} {chunk : Chunk} {index : Nat}
    {e : Expr Typing} (W : WellTyped a) (A : Assembled a image)
    (h : a.ExpressionAt image chunk index e) : a.Standing image chunk.code index e := by
  obtain ⟨i, h⟩ := h
  exact ⟨TypeId.first + i, h.standing W A⟩

end ClassLang
