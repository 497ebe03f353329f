import ClassLang.Proofs.Allocation
import ClassLang.Proofs.ControlFlow

/-!
# Where the code of a tree stands

How many instructions a tree is lowered to depends on the tree alone, and neither on types nor on slots nor
on the place (`Emits.length_eq`, `EmitsStmt.length_eq`). So the tree also tells where in the code of a body
the code of each statement in it starts (`Stmt.places`). The code of an expression has no jumps
(`Emits.straight`); those of a statement lead into it or right behind it.
-/

namespace ClassLang

variable {ν : Type}

namespace Expr

mutual

/-- The number of instructions of an expression. The target of a call or of an assignment counts with the
instruction that calls or assigns it in the place of the one that would read it. -/
def width : Expr ν → Nat
  | .number .. | .string .. | .boolean .. | .null .. | .name .. | .this .. | .base .. => 1
  | .member e _ _ => e.width + 1
  | .call e es _ => e.width + widths es
  | .new _ es _ => 2 + widths es + 2
  | .assign (.name ..) v _ => v.width + 2
  | .assign e v _ => e.width + v.width
  | .binary _ l r _ => l.width + r.width + 1
  | .unary _ e _ | .assert e _ | .instanceTest e _ _ | .cast e _ _ => e.width + 1

/-- The number of instructions of several expressions. -/
def widths : List (Expr ν) → Nat
  | [] => 0
  | e :: es => e.width + widths es

end

end Expr

namespace Stmt

mutual

/-- The number of instructions of a statement. -/
def width : Stmt ν → Nat
  | .define _ _ e _ | .return (some e) _ | .expression e _ => e.width + 1
  | .return none _ => 2
  | .ifThen c b _ => c.width + 1 + b.width
  | .ifElse c b o _ => c.width + 1 + b.width + 1 + o.width
  | .while c b _ => c.width + 1 + b.width + 1
  | .block ss _ => widths ss

/-- The number of instructions of several statements. -/
def widths : List (Stmt ν) → Nat
  | [] => 0
  | s :: ss => s.width + widths ss

end

mutual

/-- The statements in a statement whose code starts at an index, itself among them, with the indices at
which their code starts. -/
def places (start : Nat) : Stmt ν → List (Nat × Stmt ν)
  | .ifThen c b s => (start, .ifThen c b s) :: places (start + c.width + 1) b
  | .ifElse c b o s => (start, .ifElse c b o s) ::
      (places (start + c.width + 1) b ++ places (start + c.width + 1 + b.width + 1) o)
  | .while c b s => (start, .while c b s) :: places (start + c.width + 1) b
  | .block ss s => (start, .block ss s) :: placesAll start ss
  | .define x w e s => [(start, .define x w e s)]
  | .return e s => [(start, .return e s)]
  | .expression e s => [(start, .expression e s)]

/-- The statements in several statements, whose code starts at an index. -/
def placesAll (start : Nat) : List (Stmt ν) → List (Nat × Stmt ν)
  | [] => []
  | s :: ss => places start s ++ placesAll (start + s.width) ss

end

end Stmt

/-- A body with an `if` in a block. -/
example : Stmt.places 0 (.block [.ifThen (.boolean true ()) (.return none .none) .none] .none) =
    [(0, .block [.ifThen (.boolean true ()) (.return none .none) .none] .none),
      (0, .ifThen (.boolean true ()) (.return none .none) .none), (2, .return none .none)] := rfl

section

variable {q : Pools} {t : ClassTable} {room : Nat}

mutual

/-- The code of an expression is as long as the expression tells. -/
theorem Emits.length_eq {names : List String} : ∀ {e : Expr Typing} {code : List Instr},
    Emits q t names e code → code.length = e.width
  | .number .., _, h | .string .., _, h | .boolean .., _, h | .null .., _, h | .name .., _, h
  | .this .., _, h | .base .., _, h => by
    cases h
    rfl
  | .member e _ _, _, h => by
    cases h with
    | member he => simp [Expr.width, he.length_eq]
  | .call e es _, _, h => by
    cases e with
    | member o _ _ =>
      cases h with
      | call ho _ _ _ hes =>
        simp only [Expr.width, List.length_append, ho.length_eq, lengths_eq hes, List.length_singleton]
        omega
    | _ => cases h
  | .new _ es _, _, h => by
    cases h with
    | new _ _ _ hes => simp [Expr.width, lengths_eq hes]; omega
  | .assign e v _, _, h => by
    cases e with
    | name _ _ =>
      cases h with
      | assignName _ hv => simp [Expr.width, hv.length_eq]
    | member o _ _ =>
      cases h with
      | assignMember ho _ _ hv =>
        simp only [Expr.width, List.length_append, ho.length_eq, hv.length_eq, List.length_singleton]
        omega
    | _ => cases h
  | .binary _ l r _, _, h => by
    cases h with
    | primitive hl hr | binary hl hr => simp [Expr.width, hl.length_eq, hr.length_eq, Nat.add_assoc]
  | .unary _ e _, _, h => by
    cases h with
    | unaryPrimitive he | unary he => simp [Expr.width, he.length_eq]
  | .assert e _, _, h => by
    cases h with
    | assert he => simp [Expr.width, he.length_eq]
  | .instanceTest e _ _, _, h => by
    cases h with
    | nullTest he | instanceTest he => simp [Expr.width, he.length_eq]
  | .cast e _ _, _, h => by
    cases h with
    | cast he => simp [Expr.width, he.length_eq]

/-- `Emits.length_eq` for expressions one after the other. -/
theorem lengths_eq {names : List String} : ∀ {es : List (Expr Typing)} {codes : List (List Instr)},
    List.Forall₂ (Emits q t names) es codes → codes.flatten.length = Expr.widths es
  | [], _, h => by
    cases h
    rfl
  | e :: es, _, h => by
    cases h with
    | cons he hes => rw [List.flatten_cons, List.length_append, he.length_eq, lengths_eq hes, Expr.widths]

end

mutual

/-- The code of an expression runs straight on. -/
theorem Emits.straight {names : List String} : ∀ {e : Expr Typing} {code : List Instr},
    Emits q t names e code → ∀ i ∈ code, i.Straight
  | .number .., _, h => by
    cases h with
    | number hi => cases hi <;> exact List.forall_mem_singleton.mpr fun _ => rfl
  | .boolean b _, _, h => by
    cases h
    cases b <;> exact List.forall_mem_singleton.mpr fun _ => rfl
  | .string .., _, h | .null .., _, h | .name .., _, h | .this .., _, h | .base .., _, h => by
    cases h
    exact List.forall_mem_singleton.mpr fun _ => rfl
  | .member e _ _, _, h => by
    cases h with
    | member he => exact List.forall_mem_append.mpr ⟨he.straight, List.forall_mem_singleton.mpr fun _ => rfl⟩
  | .call e es _, _, h => by
    cases e with
    | member o _ _ =>
      cases h with
      | call ho _ _ _ hes =>
        refine List.forall_mem_append.mpr ⟨List.forall_mem_append.mpr ⟨ho.straight, straight_all hes⟩, ?_⟩
        refine List.forall_mem_singleton.mpr ?_
        cases o <;> exact fun _ => rfl
    | _ => cases h
  | .new _ es _, _, h => by
    cases h with
    | new _ _ _ hes =>
      simp only [List.forall_mem_append, List.forall_mem_cons]
      exact ⟨⟨⟨fun _ => rfl, fun _ => rfl, by simp⟩, straight_all hes⟩, fun _ => rfl, fun _ => rfl, by simp⟩
  | .assign e v _, _, h => by
    cases e with
    | name _ _ =>
      cases h with
      | assignName _ hv =>
        simp only [List.forall_mem_append, List.forall_mem_cons]
        exact ⟨hv.straight, fun _ => rfl, fun _ => rfl, by simp⟩
    | member o _ _ =>
      cases h with
      | assignMember ho _ _ hv =>
        exact List.forall_mem_append.mpr ⟨List.forall_mem_append.mpr ⟨ho.straight, hv.straight⟩,
          List.forall_mem_singleton.mpr fun _ => rfl⟩
    | _ => cases h
  | .binary _ l r _, _, h => by
    cases h with
    | primitive hl hr =>
      exact List.forall_mem_append.mpr ⟨List.forall_mem_append.mpr ⟨hl.straight, hr.straight⟩,
        List.forall_mem_singleton.mpr fun _ => rfl⟩
    | binary hl hr =>
      refine List.forall_mem_append.mpr ⟨List.forall_mem_append.mpr ⟨hl.straight, hr.straight⟩, ?_⟩
      refine List.forall_mem_singleton.mpr ?_
      split <;> exact fun _ => rfl
  | .unary _ e _, _, h => by
    cases h with
    | unaryPrimitive he | unary he =>
      exact List.forall_mem_append.mpr ⟨he.straight, List.forall_mem_singleton.mpr fun _ => rfl⟩
  | .assert e _, _, h => by
    cases h with
    | assert he => exact List.forall_mem_append.mpr ⟨he.straight, List.forall_mem_singleton.mpr fun _ => rfl⟩
  | .instanceTest e _ _, _, h => by
    cases h with
    | nullTest he | instanceTest he =>
      exact List.forall_mem_append.mpr ⟨he.straight, List.forall_mem_singleton.mpr fun _ => rfl⟩
  | .cast e _ _, _, h => by
    cases h with
    | cast he => exact List.forall_mem_append.mpr ⟨he.straight, List.forall_mem_singleton.mpr fun _ => rfl⟩

/-- `Emits.straight` for expressions one after the other. -/
theorem straight_all {names : List String} : ∀ {es : List (Expr Typing)} {codes : List (List Instr)},
    List.Forall₂ (Emits q t names) es codes → ∀ i ∈ codes.flatten, i.Straight
  | [], _, h => by
    cases h
    simp
  | e :: es, _, h => by
    cases h with
    | cons he hes =>
      rw [List.flatten_cons]
      exact List.forall_mem_append.mpr ⟨he.straight, straight_all hes⟩

end

mutual

/-- The code of a statement is as long as the statement tells. -/
theorem EmitsStmt.length_eq : ∀ {s : Stmt Typing} {names : List String} {start : Nat}
    {code : List Instr}, EmitsStmt q t room names start s code → code.length = s.width
  | .define .., _, _, _, h => by
    cases h with
    | define he => simp [Stmt.width, he.length_eq]
  | .return (some e) _, _, _, _, h => by
    cases h with
    | «return» he => simp [Stmt.width, he.length_eq]
  | .return none _, _, _, _, h => by
    cases h
    rfl
  | .ifThen .., _, _, _, h => by
    cases h with
    | ifThen hc hb => simp [Stmt.width, hc.length_eq, hb.length_eq]; omega
  | .ifElse .., _, _, _, h => by
    cases h with
    | ifElse hc hb ho => simp [Stmt.width, hc.length_eq, hb.length_eq, ho.length_eq]; omega
  | .while .., _, _, _, h => by
    cases h with
    | «while» hc hb => simp [Stmt.width, hc.length_eq, hb.length_eq]; omega
  | .block ss _, _, _, _, h => by
    cases h with
    | block hss => rw [Stmt.width, hss.length_eq]
  | .expression .., _, _, _, h => by
    cases h with
    | expression he => simp [Stmt.width, he.length_eq]

/-- `EmitsStmt.length_eq` for statements one after the other. -/
theorem EmitsStmts.length_eq : ∀ {ss : List (Stmt Typing)} {names : List String} {start : Nat}
    {code : List Instr}, EmitsStmts q t room names start ss code → code.length = Stmt.widths ss
  | [], _, _, _, h => by
    cases h
    rfl
  | s :: ss, _, _, _, h => by
    cases h with
    | cons hs hss => rw [List.length_append, hs.length_eq, hss.length_eq, Stmt.widths]

end

/-! ## The parts of the code -/

variable {code : Array Instr} {names : List String} {start : Nat} {c : Expr Typing} {b o : Stmt Typing}
  {s : Span} {is : List Instr}

/-- The code of an `if` without `else` in a chunk. -/
theorem EmitsStmt.ifThen_parts (h : EmitsStmt q t room names start (.ifThen c b s) is)
    (hcode : CodeAt code start is) : ∃ test body, Emits q t names c test ∧
      EmitsStmt q t room names (start + c.width + 1) b body ∧
      CodeAt code start (test ++ [Instr.jumpIfFalse (start + c.width + 1 + b.width)]) ∧
      CodeAt code (start + c.width + 1) body := by
  cases h with
  | @ifThen _ _ _ _ _ test body hc hb =>
    have htest := hc.length_eq
    rw [htest] at hb
    rw [htest, hb.length_eq, List.append_cons] at hcode
    have hbody := hcode.right
    rw [List.length_append, List.length_singleton, htest, ← Nat.add_assoc] at hbody
    exact ⟨test, body, hc, hb, hcode.left, hbody⟩

/-- The code of an `if` with `else` in a chunk. -/
theorem EmitsStmt.ifElse_parts (h : EmitsStmt q t room names start (.ifElse c b o s) is)
    (hcode : CodeAt code start is) : ∃ test body other, Emits q t names c test ∧
      EmitsStmt q t room names (start + c.width + 1) b body ∧
      EmitsStmt q t room names (start + c.width + 1 + b.width + 1) o other ∧
      CodeAt code start (test ++ [Instr.jumpIfFalse (start + c.width + 1 + b.width + 1)]) ∧
      CodeAt code (start + c.width + 1) body ∧
      CodeAt code (start + c.width + 1 + b.width)
        (.jump (start + c.width + 1 + b.width + 1 + o.width) :: other) := by
  cases h with
  | @ifElse _ _ _ _ _ _ test body other hc hb ho =>
    have htest := hc.length_eq
    rw [htest] at hb
    rw [htest, hb.length_eq] at ho
    rw [htest, hb.length_eq, ho.length_eq, List.append_cons test, List.append_assoc] at hcode
    have hrest := hcode.right
    rw [List.length_append, List.length_singleton, htest, ← Nat.add_assoc] at hrest
    have hother := hrest.right
    rw [hb.length_eq] at hother
    exact ⟨test, body, other, hc, hb, ho, hcode.left, hrest.left, hother⟩

/-- The code of a loop in a chunk. -/
theorem EmitsStmt.while_parts (h : EmitsStmt q t room names start (.while c b s) is)
    (hcode : CodeAt code start is) : ∃ test body, Emits q t names c test ∧
      EmitsStmt q t room names (start + c.width + 1) b body ∧
      CodeAt code start (test ++ [Instr.jumpIfFalse (start + c.width + 1 + b.width + 1)]) ∧
      CodeAt code (start + c.width + 1) body ∧
      code[start + c.width + 1 + b.width]? = some (.jump start) := by
  cases h with
  | @«while» _ _ _ _ _ test body hc hb =>
    have htest := hc.length_eq
    rw [htest] at hb
    rw [htest, hb.length_eq, List.append_cons test, List.append_assoc] at hcode
    have hrest := hcode.right
    rw [List.length_append, List.length_singleton, htest, ← Nat.add_assoc] at hrest
    have hback := hrest.right
    rw [hb.length_eq] at hback
    exact ⟨test, body, hc, hb, hcode.left, hrest.left, hback.head⟩

mutual

/-- The code of every statement in a statement stands at its place. -/
theorem EmitsStmt.places_emit : ∀ {s : Stmt Typing} {names : List String} {start : Nat} {is : List Instr},
    EmitsStmt q t room names start s is → CodeAt code start is → ∀ p ∈ s.places start,
      ∃ names' is', EmitsStmt q t room names' p.1 p.2 is' ∧ CodeAt code p.1 is'
  | .define .., _, _, _, h, hcode => List.forall_mem_singleton.mpr ⟨_, _, h, hcode⟩
  | .return .., _, _, _, h, hcode => List.forall_mem_singleton.mpr ⟨_, _, h, hcode⟩
  | .expression .., _, _, _, h, hcode => List.forall_mem_singleton.mpr ⟨_, _, h, hcode⟩
  | .ifThen .., _, _, _, h, hcode => by
    obtain ⟨_, _, _, hb, _, hbody⟩ := h.ifThen_parts hcode
    exact List.forall_mem_cons.mpr ⟨⟨_, _, h, hcode⟩, hb.places_emit hbody⟩
  | .ifElse .., _, _, _, h, hcode => by
    obtain ⟨_, _, _, _, hb, ho, _, hbody, hother⟩ := h.ifElse_parts hcode
    exact List.forall_mem_cons.mpr ⟨⟨_, _, h, hcode⟩,
      List.forall_mem_append.mpr ⟨hb.places_emit hbody, ho.places_emit hother.tail⟩⟩
  | .while .., _, _, _, h, hcode => by
    obtain ⟨_, _, _, hb, _, hbody, _⟩ := h.while_parts hcode
    exact List.forall_mem_cons.mpr ⟨⟨_, _, h, hcode⟩, hb.places_emit hbody⟩
  | .block .., _, _, _, h, hcode => by
    cases h with
    | block hss => exact List.forall_mem_cons.mpr ⟨⟨_, _, .block hss, hcode⟩, hss.places_emit hcode⟩

/-- `EmitsStmt.places_emit` for statements one after the other. -/
theorem EmitsStmts.places_emit : ∀ {ss : List (Stmt Typing)} {names : List String} {start : Nat}
    {is : List Instr}, EmitsStmts q t room names start ss is → CodeAt code start is →
      ∀ p ∈ Stmt.placesAll start ss,
        ∃ names' is', EmitsStmt q t room names' p.1 p.2 is' ∧ CodeAt code p.1 is'
  | [], _, _, _, _, _ => by simp [Stmt.placesAll]
  | s :: ss, _, _, _, h, hcode => by
    cases h with
    | cons hs hss =>
      have hright := hcode.right
      rw [hs.length_eq] at hss hright
      exact List.forall_mem_append.mpr ⟨hs.places_emit hcode.left, hss.places_emit hright⟩

end

/-- The place of a statement is the first of the places in it. -/
theorem Stmt.mem_places (s : Stmt ν) (start : Nat) : (start, s) ∈ s.places start := by
  cases s <;> exact List.mem_cons_self

end

/-! ## The statements of a program -/

/-- The number of instructions in front of the body of a constructor, which call the parent's. -/
def ConstructorDecl.baseWidth (d : ConstructorDecl ν) : Nat := Expr.widths (d.baseArguments.getD []) + 3

/-- A statement of a program, the chunk that has its code, and the index at which the code starts. -/
inductive Analysis.StatementAt (a : Analysis) (image : Image) (chunk : Chunk) (index : Nat)
    (s : Stmt Typing) : Prop
  | method {i : Nat} {d : ClassDecl Typing} {c : Construct} {md : MethodDecl Typing} :
      a.program.classes[i]? = some d → image.construct? (Builtin.count + i) = some c → md ∈ d.methods →
      image.ChunkUnder c md.name.key chunk → (index, s) ∈ md.body.places 0 →
      StatementAt a image chunk index s
  | constructor {i : Nat} {d : ClassDecl Typing} {c : Construct} {cd : ConstructorDecl Typing} :
      a.program.classes[i]? = some d → image.construct? (Builtin.count + i) = some c →
      cd ∈ d.constructors → image.ChunkUnder c .constructor chunk →
      (index, s) ∈ cd.body.places cd.baseWidth → StatementAt a image chunk index s

section

variable {q : Pools} {t : ClassTable}

theorem EmitsBaseCall.length_eq {parent : Nat} {names : List String} {es : List (Expr Typing)}
    {is : List Instr} (h : EmitsBaseCall q t parent names es is) : is.length = Expr.widths es + 3 := by
  cases h with
  | call hcs _ => simp [lengths_eq hcs]

/-- The code that calls the parent's constructor runs straight on. -/
theorem EmitsBaseCall.straight {parent : Nat} {names : List String} {es : List (Expr Typing)}
    {is : List Instr} (h : EmitsBaseCall q t parent names es is) : ∀ i ∈ is, i.Straight := by
  cases h with
  | call hcs _ =>
    simp only [List.forall_mem_append, List.forall_mem_cons]
    exact ⟨⟨fun _ => rfl, straight_all hcs⟩, fun _ => rfl, fun _ => rfl, by simp⟩

/-- The code that stores the initial values of fields runs straight on. -/
theorem fields_straight {id : TypeId} {ds : List (FieldDecl Typing)} {codes : List (List Instr)}
    (h : List.Forall₂ (EmitsField q t id) ds codes) : ∀ i ∈ codes.flatten, i.Straight := by
  induction h with
  | nil => simp
  | cons hc _ ih =>
    rw [List.flatten_cons]
    refine List.forall_mem_append.mpr ⟨?_, ih⟩
    cases hc with
    | blank => simp
    | initial _ _ hc =>
      simp only [List.forall_mem_append, List.forall_mem_cons]
      exact ⟨⟨fun _ => rfl, hc.straight⟩, fun _ => rfl, fun _ => rfl, by simp⟩

end

section

variable {a : Analysis} {image : Image} {chunk : Chunk} {index i : Nat} {s : Stmt Typing}
  {d : ClassDecl Typing}

theorem Image.ChunkUnder.hasChunk {c : Construct} {key : MemberKey} (h : image.ChunkUnder c key chunk)
    (hc : image.construct? i = some c) : image.HasChunk chunk := by
  obtain ⟨m, _, hfind⟩ := h
  exact .inr ⟨i, c, m, hc, hfind⟩

/-- A body of a construct is a native of a built-in class, or that of a member of a declared class. -/
theorem body_cases (W : WellTyped a) (A : Assembled a image) {k m : Nat} {c : Construct} {body : Body}
    (hc : image.construct? k = some c) (hfind : c.bodies.find? m = some body) :
    ∃ key, image.members[m]? = some key ∧
      ((∃ b ∈ Builtin.classes, ∃ bm ∈ b.methods, bm.key = key ∧ body = .ofNative bm.native) ∨
      ∃ i d p parent r, k = Builtin.count + i ∧ a.program.classes[i]? = some d ∧
        ClassTyped a.classes (TypeId.first + i) p r d ∧ TypeId.construct? p = some parent ∧
        Implements image.pools a.classes (TypeId.first + i) parent d key body) := by
  obtain ⟨id, hid, hne, rfl⟩ := BoundsLemmas.exists_class W A (Array.getElem?_eq_some_iff.mp hc).1
  rcases W.class_cases hid with ⟨b, hb⟩ | rfl | ⟨i, d, p, r, rfl, hd, ht⟩
  · obtain ⟨c', hc', hemits⟩ := A.builtin id b hb
    rw [TypeId.index_builtin (List.getElem?_eq_some_iff.mp hb).1, hc'] at hc
    cases hc
    obtain ⟨key, hm⟩ := hemits.bodies.known m _ hfind
    exact ⟨key, hm, .inl ⟨b, List.mem_of_getElem? hb, hemits.bodies.found m key _ hm hfind⟩⟩
  · exact absurd rfl hne
  · obtain ⟨c', hc', hemits⟩ := A.user i d hd
    rw [TypeId.index_user] at hc ⊢
    rw [hc] at hc'
    cases hc'
    obtain ⟨p', parent, hp', hk, _, htable⟩ := hemits.bodies
    rw [ht.parent_eq] at hp'
    cases hp'
    obtain ⟨key, hm⟩ := htable.known m _ hfind
    exact ⟨key, hm, .inr ⟨i, d, p, parent, r, rfl, hd, ht, hk, htable.found m key _ hm hfind⟩⟩

/-- The chunks of an image are that of the start and those of the members of declared classes. -/
theorem hasChunk_cases (W : WellTyped a) (A : Assembled a image) (h : image.HasChunk chunk) :
    chunk = image.entry ∨ ∃ i d c p parent r key, a.program.classes[i]? = some d ∧
      image.construct? (Builtin.count + i) = some c ∧ ClassTyped a.classes (TypeId.first + i) p r d ∧
      TypeId.construct? p = some parent ∧ image.ChunkUnder c key chunk ∧
      Implements image.pools a.classes (TypeId.first + i) parent d key (.compiled chunk) := by
  refine h.imp_right ?_
  rintro ⟨k, c, m, hc, hfind⟩
  obtain ⟨key, hm, ⟨_, _, _, _, _, hnative⟩ | ⟨i, d, p, parent, r, rfl, hd, ht, hk, himpl⟩⟩ :=
    body_cases W A hc hfind
  · cases hnative
  · exact ⟨i, d, c, p, parent, r, key, hd, hc, ht, hk, ⟨m, hm, hfind⟩, himpl⟩

/-- The chunk of a method. -/
theorem method_chunk (A : Assembled a image) {p : Nat} {r : ClassRecord}
    (hd : a.program.classes[i]? = some d) (ht : ClassTyped a.classes (TypeId.first + i) p r d)
    {c : Construct} (hc : image.construct? (Builtin.count + i) = some c) {md : MethodDecl Typing}
    (hmd : md ∈ d.methods) (h : image.ChunkUnder c md.name.key chunk) :
    EmitsChunk image.pools a.classes md.params [] (some md.body) chunk := by
  obtain ⟨c', hc', hemits⟩ := A.user i d hd
  rw [hc] at hc'
  cases hc'
  obtain ⟨_, parent, _, _, _, htable⟩ := hemits.bodies
  obtain ⟨m, hm, hfind⟩ := h
  exact AllocationLemmas.method_emitted ht hmd (htable.found m _ _ hm hfind)

/-- The chunk of a declared constructor. -/
theorem constructor_chunk (A : Assembled a image) {p : Nat} {r : ClassRecord}
    (hd : a.program.classes[i]? = some d) (ht : ClassTyped a.classes (TypeId.first + i) p r d)
    {c : Construct} (hc : image.construct? (Builtin.count + i) = some c) {cd : ConstructorDecl Typing}
    (hcd : cd ∈ d.constructors) (h : image.ChunkUnder c .constructor chunk) :
    ∃ parent before, TypeId.construct? p = some parent ∧
      EmitsBaseCall image.pools a.classes parent (paramNames cd.params) (cd.baseArguments.getD []) before ∧
      EmitsChunk image.pools a.classes cd.params before (some cd.body) chunk := by
  obtain ⟨c', hc', hemits⟩ := A.user i d hd
  rw [hc] at hc'
  cases hc'
  obtain ⟨p', parent, hp', hk, _, htable⟩ := hemits.bodies
  rw [ht.parent_eq] at hp'
  cases hp'
  obtain ⟨m, hm, hfind⟩ := h
  obtain ⟨before, hbefore, hchunk⟩ :=
    AllocationLemmas.constructor_emitted ht.registered hcd (htable.found m _ _ hm hfind)
  exact ⟨parent, before, hk, hbefore, hchunk⟩

theorem EmitsChunk.body_at {params : List Param} {before : List Instr} {body : Stmt Typing}
    (h : EmitsChunk image.pools a.classes params before (some body) chunk) : ∃ is,
      EmitsStmt image.pools a.classes chunk.locals (paramNames params) before.length body is ∧
      CodeAt chunk.code before.length is ∧
      CodeAt chunk.code (before.length + body.width) [.pushNull, .return] ∧
      chunk.code.size = before.length + body.width + 2 := by
  obtain ⟨is, hcode, hbody⟩ := h.code
  have hwhole := CodeAt.whole hcode
  refine ⟨is, hbody, ?_, ?_, ?_⟩
  · simpa using hwhole.left.right
  · simpa [hbody.length_eq] using hwhole.right
  · rw [← Array.length_toList, hcode]
    simp only [List.length_append, hbody.length_eq, List.length_cons, List.length_nil]

/-- At the place of a statement its code stands. -/
theorem Analysis.StatementAt.emits (W : WellTyped a) (A : Assembled a image)
    (h : a.StatementAt image chunk index s) : ∃ room names is,
      EmitsStmt image.pools a.classes room names index s is ∧ CodeAt chunk.code index is ∧
      is.length = s.width := by
  have hplace {body : Stmt Typing} {params : List Param} {before : List Instr}
      (hchunk : EmitsChunk image.pools a.classes params before (some body) chunk)
      (hp : (index, s) ∈ body.places before.length) : ∃ room names is,
        EmitsStmt image.pools a.classes room names index s is ∧ CodeAt chunk.code index is ∧
        is.length = s.width := by
    obtain ⟨_, hbody, hcode, _⟩ := hchunk.body_at
    obtain ⟨names, is, hs, hat⟩ := hbody.places_emit hcode _ hp
    exact ⟨_, names, is, hs, hat, hs.length_eq⟩
  cases h with
  | @method i d c md hd hc hmd hunder hp =>
    obtain ⟨_, _, ht⟩ := W.each i d hd
    exact hplace (method_chunk A hd ht hc hmd hunder) hp
  | @constructor i d c cd hd hc hcd hunder hp =>
    obtain ⟨_, _, ht⟩ := W.each i d hd
    obtain ⟨_, before, _, hbefore, hchunk⟩ := constructor_chunk A hd ht hc hcd hunder
    refine hplace hchunk ?_
    rwa [hbefore.length_eq]

end

end ClassLang
