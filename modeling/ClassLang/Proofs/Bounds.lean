import ClassLang.Proofs.Safety
import ClassLang.Proofs.Validation

/-!
# Images of programs are valid

Whatever the image of a program refers to is there (`Lower.image_valid`); validity turns away images from
outside only. Of each instruction it is said how far its operands may go (`Image.Bounds`). The code of an
expression has no jumps and needs the slots of the visible names (`expr_bounds`). The jumps of a statement
lead into its code or right behind it (`stmt_bounds`), and there a chunk always goes on.
-/

namespace ClassLang

/-- The operands of an instruction lie within the parts of the image, and the slot and the target within
`room` slots and the index `finish`. -/
def Image.Bounds (image : Image) (room finish : Nat) : Instr → Prop
  | .pushConst c => c < image.constants.size
  | .load s | .store s => s < room
  | .jump t | .jumpIfFalse t => t ≤ finish
  | .new k | .isInstance k _ | .cast k _ => k < image.constructs.size
  | .invoke k m | .callVirtual k m | .virtualOrAny k m =>
    k < image.constructs.size ∧ m < image.members.size
  | _ => True

/-- A chunk has slots for its arguments, and its code is in bounds. -/
structure Image.Supports (image : Image) (chunk : Chunk) : Prop where
  arguments : chunk.arguments ≤ chunk.locals
  code : ∀ i ∈ chunk.code.toList, image.Bounds chunk.locals chunk.code.size i

section

variable {a : Analysis} {image : Image} {room finish finish' : Nat} {i : Instr} {code : List Instr}
  {ρ : Ty} {cls : Nat}

namespace BoundsLemmas

theorem mono (h : image.Bounds room finish i) (hle : finish ≤ finish') :
    image.Bounds room finish' i := by
  cases i with
  | jump t | jumpIfFalse t => exact Nat.le_trans h hle
  | _ => exact h

theorem mono_code (h : ∀ i ∈ code, image.Bounds room finish i) (hle : finish ≤ finish') :
    ∀ i ∈ code, image.Bounds room finish' i := fun i hi => mono (h i hi) hle

theorem constant_lt {c : Nat} {v : Constant} (h : image.pools.constants.get? c = some v) :
    c < image.constants.size :=
  (Array.getElem?_eq_some_iff.mp h).1

theorem member_lt {m : Nat} {key : MemberKey} (h : image.pools.members[m]? = some key) :
    m < image.members.size :=
  (Array.getElem?_eq_some_iff.mp h).1

/-- The slots of names are as many as the names, behind that of the receiver. -/
theorem slot_le {names : List String} {x : String} {s : Nat}
    (h : (slotsOf names).lookup x = some s) : s ≤ names.length := by
  induction names with
  | nil => cases h
  | cons y names ih =>
    rw [slotsOf, List.lookup_cons] at h
    split at h
    · exact Nat.le_of_eq (Option.some.inj h).symm
    · exact Nat.le_succ_of_le (ih h)

theorem names_lt {visible : List Binding} (hroom : visible.length < room) {x : String} {s : Nat}
    (h : (slotsOf (LocalsRel.names visible)).lookup x = some s) : s < room := by
  have hle := slot_le h
  rw [LocalsRel.names, List.length_map] at hle
  exact Nat.lt_of_le_of_lt hle hroom

theorem visible_length {visible : List Binding} {params : List Param}
    (h : LocalsRel.names visible = paramNames params) : visible.length = params.length := by
  simpa [LocalsRel.names, paramNames] using congrArg List.length h

theorem forall_mem_snoc {P : Instr → Prop} (h : ∀ j ∈ code, P j) (hi : P i) :
    ∀ j ∈ code ++ [i], P j :=
  List.forall_mem_append.mpr ⟨h, List.forall_mem_singleton.mpr hi⟩

theorem classOf_lt (W : WellTyped a) {τ : Ty} (h : a.classes.Names τ) :
    Lower.classOf τ < a.classes.size := by
  cases τ with
  | null => exact Nat.lt_of_lt_of_le (by decide) W.first_le
  | plain c | option c => exact h c rfl

theorem construct_lt (W : WellTyped a) (A : Assembled a image) {id k : Nat}
    (hid : id < a.classes.size) (hk : TypeId.construct? id = some k) : k < image.constructs.size := by
  obtain ⟨hne, rfl⟩ := TypeId.ne_unit_of_construct hk
  obtain ⟨c, hc, _⟩ := construct_of_class W A hid hne
  exact (Array.getElem?_eq_some_iff.mp hc).1

theorem number_bounds {x : Float} (h : NumberCode image.pools x i) : image.Bounds room finish i := by
  cases h with
  | zero | one => trivial
  | pooled hc => exact constant_lt hc

theorem call_bounds {o : Expr Typing} {k m : Nat} (hk : k < image.constructs.size)
    (hm : m < image.members.size) : image.Bounds room finish (Lower.call o k m) := by
  cases o <;> exact ⟨hk, hm⟩

/-- Behind a statement there is still room for the visible names. -/
theorem room_after {q : Pools} {t : ClassTable} {names : List String} {start : Nat}
    {st : Stmt Typing} (hroom : names.length < room) (h : EmitsStmt q t room names start st code) :
    (st.visible names).length < room := by
  cases h with
  | define _ hnext => exact hnext
  | _ => exact hroom

end BoundsLemmas

open BoundsLemmas

/-! ## Code -/

mutual

/-- The code of a well-typed expression is in bounds, wherever the chunk ends. -/
theorem expr_bounds (W : WellTyped a) (A : Assembled a image) (hcls : cls < a.classes.size)
    {env : Environment} (henv : env.Proper a.classes cls ρ) (hroom : env.visible.length < room) :
    ∀ (e : Expr Typing) {τ : Ty} {code : List Instr}, Typed env e τ →
      Emits image.pools a.classes (LocalsRel.names env.visible) e code →
      ∀ i ∈ code, image.Bounds room finish i
  | .number x ν, τ, code, he, hc => by
    cases hc with
    | number hi => exact List.forall_mem_singleton.mpr (number_bounds hi)
  | .string c ν, τ, code, he, hc => by
    cases hc with
    | string hi => exact List.forall_mem_singleton.mpr (constant_lt hi)
  | .boolean b ν, τ, code, he, hc => by
    cases hc
    cases b <;> exact List.forall_mem_singleton.mpr trivial
  | .null ν, τ, code, he, hc => by
    cases hc
    exact List.forall_mem_singleton.mpr trivial
  | .name x ν, τ, code, he, hc => by
    cases hc with
    | name hi => exact List.forall_mem_singleton.mpr (names_lt hroom hi)
  | .this ν, τ, code, he, hc => by
    cases hc
    exact List.forall_mem_singleton.mpr (Nat.zero_lt_of_lt hroom)
  | .base ν, τ, code, he, hc => by
    cases hc
    exact List.forall_mem_singleton.mpr (Nat.zero_lt_of_lt hroom)
  | .member e x ν, τ, code, he, hc => by
    cases he with
    | member he =>
      cases hc with
      | member hc =>
        exact forall_mem_snoc (expr_bounds W A hcls henv hroom e he hc) trivial
  | .call e es ν', τ, code, he, hc => by
    cases e with
    | member o x ν =>
      cases he with
      | call ho _ _ _ hlen hes =>
        cases hc with
        | call hc hτ hk hm hcs =>
          rw [ho.note_type] at hτ
          cases hτ
          have hlt := classOf_lt W (W.typed_names henv.inside hcls henv.named ho)
          exact forall_mem_snoc (List.forall_mem_append.mpr
            ⟨expr_bounds W A hcls henv hroom o ho hc, exprs_bounds W A hcls henv hroom es hlen hes hcs⟩)
            (call_bounds (construct_lt W A hlt hk) (member_lt hm))
    | _ => cases he
  | .new c es ν, τ, code, he, hc => by
    have hid := W.typed_names henv.inside hcls henv.named he
    cases he with
    | new hfind _ _ hlen hes =>
      cases hc with
      | new hfind' hk hm hcs =>
        rw [henv.inside.classes] at hfind
        cases hfind.symm.trans hfind'
        have hk := construct_lt W A (hid _ rfl) hk
        have hargs := exprs_bounds W A hcls henv hroom es hlen hes hcs
        simp only [List.forall_mem_append, List.forall_mem_cons]
        exact ⟨⟨⟨hk, trivial, by simp⟩, hargs⟩, ⟨hk, member_lt hm⟩, trivial, by simp⟩
  | .assign e v ν', τ, code, he, hc => by
    cases e with
    | name x ν =>
      cases he with
      | assignName _ hv =>
        cases hc with
        | assignName hi hc =>
          refine List.forall_mem_append.mpr ⟨expr_bounds W A hcls henv hroom v hv hc, ?_⟩
          simp only [List.forall_mem_cons]
          exact ⟨trivial, names_lt hroom hi, by simp⟩
    | member o x ν =>
      cases he with
      | assignMember ho _ _ _ _ hv =>
        cases hc with
        | assignMember hc _ _ hc' =>
          exact forall_mem_snoc (List.forall_mem_append.mpr
            ⟨expr_bounds W A hcls henv hroom o ho hc, expr_bounds W A hcls henv hroom v hv hc'⟩) trivial
    | _ => cases he
  | .binary op l r ν, τ, code, he, hc => by
    cases he with
    | binary hl hr =>
      cases hc with
      | primitive hc hc' =>
        exact forall_mem_snoc (List.forall_mem_append.mpr
          ⟨expr_bounds W A hcls henv hroom l hl hc, expr_bounds W A hcls henv hroom r hr hc'⟩) trivial
      | binary hc hc' hτ _ _ hk hm =>
        rw [hl.note_type] at hτ
        cases hτ
        have hlt := classOf_lt W (W.typed_names henv.inside hcls henv.named hl)
        refine forall_mem_snoc (List.forall_mem_append.mpr
          ⟨expr_bounds W A hcls henv hroom l hl hc, expr_bounds W A hcls henv hroom r hr hc'⟩) ?_
        split <;> exact ⟨construct_lt W A hlt hk, member_lt hm⟩
  | .unary op e ν, τ, code, he, hc => by
    cases he with
    | unary he =>
      cases hc with
      | unaryPrimitive hc =>
        exact forall_mem_snoc (expr_bounds W A hcls henv hroom e he hc) trivial
      | unary hc hτ _ hk hm =>
        rw [he.note_type] at hτ
        cases hτ
        have hlt := classOf_lt W (W.typed_names henv.inside hcls henv.named he)
        exact forall_mem_snoc (expr_bounds W A hcls henv hroom e he hc)
          ⟨construct_lt W A hlt hk, member_lt hm⟩
  | .assert e ν, τ, code, he, hc => by
    cases he with
    | assert he =>
      cases hc with
      | assert hc => exact forall_mem_snoc (expr_bounds W A hcls henv hroom e he hc) trivial
  | .instanceTest e w ν, τ, code, he, hc => by
    cases he with
    | instanceTest he =>
      cases hc with
      | nullTest hc => exact forall_mem_snoc (expr_bounds W A hcls henv hroom e he hc) trivial
      | instanceTest hc hw hυ hk =>
        exact forall_mem_snoc (expr_bounds W A hcls henv hroom e he hc)
          (construct_lt W A (Registration.resolveType_names hw _ hυ) hk)
  | .cast e w ν, τ, code, he, hc => by
    cases he with
    | cast he =>
      cases hc with
      | cast hc hw hυ hk =>
        exact forall_mem_snoc (expr_bounds W A hcls henv hroom e he hc)
          (construct_lt W A (Registration.resolveType_names hw _ hυ) hk)

theorem exprs_bounds (W : WellTyped a) (A : Assembled a image) (hcls : cls < a.classes.size)
    {env : Environment} (henv : env.Proper a.classes cls ρ) (hroom : env.visible.length < room) :
    ∀ (es : List (Expr Typing)) {τs : List Ty} {codes : List (List Instr)}, es.length = τs.length →
      (∀ p ∈ es.zip τs, Typed env p.1 p.2) →
      List.Forall₂ (Emits image.pools a.classes (LocalsRel.names env.visible)) es codes →
      ∀ i ∈ codes.flatten, image.Bounds room finish i
  | [], τs, codes, _, _, hcs => by
    cases hcs
    simp
  | e :: es, τs, codes, hlen, hes, hcs => by
    match τs with
    | τ :: τs =>
      rw [List.zip_cons_cons, List.forall_mem_cons] at hes
      cases hcs with
      | cons hc hcs =>
        rw [List.flatten_cons]
        exact List.forall_mem_append.mpr ⟨expr_bounds W A hcls henv hroom e hes.1 hc,
          exprs_bounds W A hcls henv hroom es (Nat.succ.inj hlen) hes.2 hcs⟩

end

mutual

/-- The code of a well-typed statement is in bounds, and its jumps lead into it or right behind it. -/
theorem stmt_bounds (W : WellTyped a) (A : Assembled a image) (hcls : cls < a.classes.size) :
    ∀ (st : Stmt Typing) {env env' : Environment} {start : Nat} {code : List Instr},
      env.Proper a.classes cls ρ → env.visible.length < room → StmtTyped env st env' →
      EmitsStmt image.pools a.classes room (LocalsRel.names env.visible) start st code →
      ∀ i ∈ code, image.Bounds room (start + code.length) i
  | .define x w e span, env, env', start, code, henv, hroom, hst, hc => by
    cases hst with
    | define he =>
      cases hc with
      | define hc hnext => exact forall_mem_snoc (expr_bounds W A hcls henv hroom e he hc) hnext
  | .return (some e) span, env, env', start, code, henv, hroom, hst, hc => by
    cases hst with
    | «return» he =>
      cases hc with
      | «return» hc => exact forall_mem_snoc (expr_bounds W A hcls henv hroom e he hc) trivial
  | .return none span, env, env', start, code, henv, hroom, hst, hc => by
    cases hc
    simp [Image.Bounds]
  | .ifThen c b span, env, env', start, code, henv, hroom, hst, hc => by
    cases hst with
    | ifThen he hb =>
      cases hc with
      | ifThen hc hcb =>
        have hbody := stmt_bounds W A hcls b henv.enter (by simpa using hroom) hb (by simpa using hcb)
        simp only [List.forall_mem_append, List.forall_mem_cons, List.length_append, List.length_cons]
        refine ⟨expr_bounds W A hcls henv hroom c he hc, ?_, mono_code hbody (by omega)⟩
        show _ ≤ _
        omega
  | .ifElse c b o span, env, env', start, code, henv, hroom, hst, hc => by
    cases hst with
    | ifElse he hb ho =>
      cases hc with
      | ifElse hc hcb hco =>
        have hbody := stmt_bounds W A hcls b henv.enter (by simpa using hroom) hb (by simpa using hcb)
        have hother := stmt_bounds W A hcls o henv.enter (by simpa using hroom) ho (by simpa using hco)
        simp only [List.forall_mem_append, List.forall_mem_cons, List.length_append, List.length_cons]
        refine ⟨⟨expr_bounds W A hcls henv hroom c he hc, ?_, mono_code hbody (by omega)⟩, ?_,
          mono_code hother (by omega)⟩
        all_goals
          show _ ≤ _
          omega
  | .while c b span, env, env', start, code, henv, hroom, hst, hc => by
    cases hst with
    | «while» he hb =>
      cases hc with
      | «while» hc hcb =>
        have hbody := stmt_bounds W A hcls b henv.enter (by simpa using hroom) hb (by simpa using hcb)
        refine forall_mem_snoc ?_ (Nat.le_add_right _ _)
        simp only [List.forall_mem_append, List.forall_mem_cons, List.length_append, List.length_cons]
        refine ⟨expr_bounds W A hcls henv hroom c he hc, ?_, mono_code hbody (by omega)⟩
        show _ ≤ _
        omega
  | .block ss span, env, env', start, code, henv, hroom, hst, hc => by
    cases hst with
    | block hss =>
      cases hc with
      | block hcs =>
        exact stmts_bounds W A hcls ss henv.enter (by simpa using hroom) hss (by simpa using hcs)
  | .expression e span, env, env', start, code, henv, hroom, hst, hc => by
    cases hst with
    | expression he =>
      cases hc with
      | expression hc => exact forall_mem_snoc (expr_bounds W A hcls henv hroom e he hc) trivial

theorem stmts_bounds (W : WellTyped a) (A : Assembled a image) (hcls : cls < a.classes.size) :
    ∀ (ss : List (Stmt Typing)) {env env' : Environment} {start : Nat} {code : List Instr},
      env.Proper a.classes cls ρ → env.visible.length < room → StmtsTyped env ss env' →
      EmitsStmts image.pools a.classes room (LocalsRel.names env.visible) start ss code →
      ∀ i ∈ code, image.Bounds room (start + code.length) i
  | [], env, env', start, code, _, _, _, hc => by
    cases hc
    simp
  | st :: ss, env, env', start, code, henv, hroom, hst, hc => by
    cases hst with
    | cons hst hss =>
      cases hc with
      | cons hc hcs =>
        obtain ⟨henv', _, hnames⟩ := hst.grows W hcls henv
        have hroom' := room_after (by simpa [LocalsRel.names] using hroom) hc
        rw [← hnames] at hcs hroom'
        have hfirst := stmt_bounds W A hcls st henv hroom hst hc
        have hrest := stmts_bounds W A hcls ss henv' (by simpa [LocalsRel.names] using hroom') hss hcs
        rw [List.length_append]
        exact List.forall_mem_append.mpr
          ⟨mono_code hfirst (by omega), mono_code hrest (by omega)⟩

end

/-! ## Chunks -/

/-- A chunk whose code in front needs no more than the slots of the parameters. -/
theorem chunk_supported (W : WellTyped a) (A : Assembled a image) (hcls : cls < a.classes.size)
    {params : List Param} {before : List Instr} {body : Option (Stmt Typing)} {chunk : Chunk}
    (hchunk : EmitsChunk image.pools a.classes params before body chunk)
    (hbefore : ∀ room finish, params.length < room → ∀ i ∈ before, image.Bounds room finish i)
    (hbody : ∀ st, body = some st → ∃ env env', env.Proper a.classes cls ρ ∧
      LocalsRel.names env.visible = paramNames params ∧ StmtTyped env st env') :
    image.Supports chunk := by
  obtain ⟨code, hcode, hemits⟩ := hchunk.code
  refine ⟨hchunk.arguments ▸ hchunk.room, ?_⟩
  rw [← Array.length_toList, hcode]
  refine List.forall_mem_append.mpr ⟨List.forall_mem_append.mpr ⟨hbefore _ _ hchunk.room, ?_⟩, ?_⟩
  · cases body with
    | none =>
      cases hemits
      simp
    | some st =>
      obtain ⟨env, env', henv, hnames, hst⟩ := hbody st rfl
      have hlen := visible_length hnames
      rw [← hnames] at hemits
      refine mono_code (stmt_bounds W A hcls st henv (hlen ▸ hchunk.room) hst hemits) ?_
      simp
  · simp [Image.Bounds]

theorem baseCall_bounds (W : WellTyped a) (A : Assembled a image) (hcls : cls < a.classes.size)
    {env : Environment} (henv : env.Proper a.classes cls ρ) {es : List (Expr Typing)} {types : List Ty}
    (hes : ArgumentsTyped env es types) {parent : Nat} (hparent : parent < image.constructs.size)
    (hc : EmitsBaseCall image.pools a.classes parent (LocalsRel.names env.visible) es code)
    (room finish : Nat) (hroom : env.visible.length < room) :
    ∀ i ∈ code, image.Bounds room finish i := by
  obtain ⟨τs, hlen, htyped, _⟩ := hes
  cases hc with
  | call hcs hm =>
    have hargs : ∀ i ∈ _, image.Bounds room finish i :=
      exprs_bounds W A hcls henv hroom es hlen htyped hcs
    simp only [List.forall_mem_append, List.forall_mem_cons]
    exact ⟨⟨Nat.zero_lt_of_lt hroom, hargs⟩, ⟨hparent, member_lt hm⟩, trivial, by simp⟩

theorem fields_bounds (W : WellTyped a) (A : Assembled a image) {id : Nat} {r : ClassRecord}
    (hid : id < a.classes.size) {ds : List (FieldDecl Typing)} {codes : List (List Instr)}
    (hds : ∀ d ∈ ds, FieldTyped a.classes id r d)
    (hcodes : List.Forall₂ (EmitsField image.pools a.classes id) ds codes) (hroom : 0 < room) :
    ∀ i ∈ codes.flatten, image.Bounds room finish i := by
  induction hcodes with
  | nil => simp
  | @cons d code ds codes hc _ ih =>
    obtain ⟨⟨f, _, hinit⟩, hds⟩ := List.forall_mem_cons.mp hds
    rw [List.flatten_cons]
    refine List.forall_mem_append.mpr ⟨?_, ih hds⟩
    cases hc with
    | blank => simp
    | initial hsome _ hc =>
      obtain ⟨υ, he, _⟩ := hinit _ hsome
      have hcode : ∀ i ∈ _, image.Bounds room finish i :=
        expr_bounds W A hid (a.classes.inside_proper id _) hroom _ he hc
      simp only [List.forall_mem_append, List.forall_mem_cons]
      exact ⟨⟨hroom, hcode⟩, trivial, trivial, by simp⟩

/-- The body of every member of a declared class. -/
theorem implements_supported (W : WellTyped a) (A : Assembled a image) {id p parent : Nat}
    {r : ClassRecord} {d : ClassDecl Typing} {key : MemberKey} {chunk : Chunk}
    (hc : ClassTyped a.classes id p r d) (hparent : parent < image.constructs.size)
    (h : Implements image.pools a.classes id parent d key (.compiled chunk)) :
    image.Supports chunk := by
  have hid := ClassTable.lt_of_record hc.record
  cases h with
  | @initializer _ m codes hm hcodes hcode hargs hlocals =>
    have hfields : ∀ i ∈ codes.flatten, image.Bounds 1 chunk.code.size i :=
      fields_bounds W A hid hc.fields hcodes Nat.one_pos
    refine ⟨by omega, ?_⟩
    rw [hcode, hlocals]
    simp only [List.forall_mem_append, List.forall_mem_cons]
    exact ⟨⟨⟨Nat.one_pos, ⟨hparent, member_lt hm⟩, trivial, by simp⟩, hfields⟩, Nat.one_pos, trivial,
      by simp⟩
  | method hmd hchunk =>
    obtain ⟨meth, hm, hlen, _, env, env', hbound, hbody⟩ := hc.methods _ hmd
    refine chunk_supported (ρ := meth.returns) W A hid hchunk (by simp) fun st hst => ?_
    cases hst
    exact ⟨env, env', hbound.proper (W.params_named hc.record hm), hbound.names hlen, hbody⟩
  | constructor hhead hbase hchunk =>
    have hctor := hc.constructor
    rw [hhead] at hctor
    obtain ⟨meth, base, hm, _, hlen, env, env', hbound, hargs, hbody⟩ := hctor
    have henv := hbound.proper (W.params_named hc.record hm)
    have hnames : LocalsRel.names env.visible = paramNames _ := hbound.names hlen
    rw [← hnames] at hbase
    refine chunk_supported (ρ := .unit) W A hid hchunk ?_ fun st hst => ?_
    · exact visible_length hnames ▸ baseCall_bounds W A hid henv hargs hparent hbase
    cases hst
    exact ⟨env, env', henv, hnames, hbody⟩
  | implicitConstructor hhead hbase hchunk =>
    refine chunk_supported (ρ := .unit) W A hid hchunk ?_ (by simp)
    have henv := a.classes.inside_proper id .unit
    exact baseCall_bounds W A hid henv ⟨[], rfl, by simp, .nil⟩ hparent hbase

/-! ## The whole image -/

namespace BoundsLemmas

theorem instrDefect_none {chunk : Chunk} (h : image.Bounds chunk.locals chunk.code.size i) :
    image.instrDefect? chunk i = none := by
  cases i <;> simp_all [Image.instrDefect?, Image.Bounds, Instr.jumpTarget?, Instr.construct?,
    Instr.constant?, Instr.slot?, Instr.member?, Image.construct?, Image.member?, ConstantPool.get?,
    ConstantPool.size]

theorem chunkDefect_none {chunk : Chunk} (h : image.Supports chunk) :
    image.chunkDefect? chunk = none := by
  rw [Image.chunkDefect?, if_neg (Nat.not_lt.mpr h.arguments), List.findSome?_eq_none_iff]
  exact fun i hi => instrDefect_none (h.code i hi)

/-- An entry of a body table is the one that is found. -/
theorem find_of_mem {table : BodyTable} {e : Nat × Body} (he : e ∈ table.entries) :
    table.find? e.1 = some e.2 := by
  obtain ⟨es, hasc⟩ := table
  simp only [BodyTable.find?] at he ⊢
  induction es with
  | nil => cases he
  | cons e' es ih =>
    rw [List.map_cons, List.pairwise_cons] at hasc
    rw [List.lookup_cons]
    rcases List.mem_cons.mp he with rfl | he
    · simp
    · have hlt := hasc.1 e.1 (List.mem_map_of_mem he)
      rw [beq_eq_false_iff_ne.mpr (Nat.ne_of_gt hlt)]
      exact ih hasc.2 he

theorem bodies_defect_none {table : BodyTable} {has : MemberKey → Prop}
    {gives : MemberKey → Body → Prop} (htable : TableOf image.pools table has gives)
    (hgives : ∀ key chunk, gives key (.compiled chunk) → image.Supports chunk) :
    table.entries.findSome? image.entryDefect? = none := by
  rw [List.findSome?_eq_none_iff]
  rintro ⟨m, body⟩ he
  have hfind := find_of_mem he
  obtain ⟨key, hm⟩ := htable.known m body hfind
  have hmember : image.member? m = some key := hm
  rw [Image.entryDefect?, hmember, Option.isNone_some]
  cases body with
  | native => rfl
  | compiled chunk => exact chunkDefect_none (hgives key chunk (htable.found m key _ hm hfind))

theorem constructsDefect_none {cs : List Construct} {start : Nat}
    (h : ∀ (j : Nat) c, cs[j]? = some c → image.constructDefect? (start + j) c = none) :
    image.constructsDefect? start cs = none := by
  induction cs generalizing start with
  | nil => rfl
  | cons c cs ih =>
    have hc : image.constructDefect? start c = none := h 0 c rfl
    rw [Image.constructsDefect?, hc, Option.none_or]
    refine ih fun j c hc => ?_
    rw [Nat.add_assoc, Nat.add_comm 1]
    exact h (j + 1) c hc

/-- Every construct is that of a class. -/
theorem exists_class (W : WellTyped a) (A : Assembled a image) {k : Nat}
    (hk : k < image.constructs.size) :
    ∃ id : Nat, id < a.classes.size ∧ id ≠ TypeId.unit ∧ TypeId.index id = k := by
  have hsize := A.size
  have hsize' := W.size
  have hcount : Builtin.count = 5 := rfl
  have hfirst : TypeId.first = 6 := rfl
  have hunit : TypeId.unit = 5 := rfl
  simp only [TypeId.index, hunit]
  by_cases hb : k < 5
  · exact ⟨k, by omega, by omega, if_pos (by omega)⟩
  · exact ⟨k + 1, by omega, by omega, if_neg (by omega)⟩

/-- The parent of a construct is there and is another one. -/
theorem parentDefect_none (W : WellTyped a) (A : Assembled a image) {id : Nat}
    (hid : id < a.classes.size) (hne : id ≠ TypeId.unit) {c : Construct}
    (hc : image.construct? (TypeId.index id) = some c) :
    image.parentDefect? (TypeId.index id) c = none := by
  obtain ⟨c', hc', _, _, hparent⟩ := construct_of_class W A hid hne
  rw [hc] at hc'
  cases hc'
  rw [Image.parentDefect?, hparent]
  cases hp : a.classes.parent? id with
  | none => rfl
  | some p =>
    have hpne := W.parent_ne_unit hp
    obtain ⟨con, hcon, _⟩ := construct_of_class W A (W.rooted.parent_lt _ _ hp) hpne
    have hother : TypeId.index p ≠ TypeId.index id := fun heq => by
      -- A class that is its own parent would have no whole chain.
      have hchain := W.rooted.ancestors_chain hid
      rw [TypeId.index_injective hpne hne heq] at hp
      rw [ClassTable.ancestors_link W.rooted hp] at hchain
      exact (List.nodup_cons.mp hchain.nodup).1
        (ClassTable.isSubclass_iff.mp (ClassTable.isSubclass_refl hid))
    simp [hcon, hother]

theorem classDefect_none (W : WellTyped a) (A : Assembled a image) {id : Nat}
    (hid : id < a.classes.size) (hne : id ≠ TypeId.unit) {c : Construct}
    (hc : image.construct? (TypeId.index id) = some c) :
    image.constructDefect? (TypeId.index id) c = none := by
  rw [Image.constructDefect?, parentDefect_none W A hid hne hc, Option.none_or]
  rcases W.class_cases hid with ⟨b, hb⟩ | rfl | ⟨i, d, p, r, rfl, hd, ht⟩
  · obtain ⟨c', hc', hemits⟩ := A.builtin id b hb
    rw [TypeId.index_builtin (List.getElem?_eq_some_iff.mp hb).1, hc'] at hc
    cases hc
    exact bodies_defect_none hemits.bodies (by simp [Body.ofNative])
  · exact absurd rfl hne
  · obtain ⟨c', hc', hemits⟩ := A.user i d hd
    rw [TypeId.index_user, hc'] at hc
    cases hc
    obtain ⟨p', parent, hp', hk, _, htable⟩ := hemits.bodies
    have hparent := construct_lt W A (W.rooted.parent_lt _ _ hp') hk
    exact bodies_defect_none htable fun key chunk h => implements_supported W A ht hparent h

theorem entry_supported (W : WellTyped a) (A : Assembled a image) : image.Supports image.entry := by
  obtain ⟨id, E⟩ := A.entry
  obtain ⟨m, hm, hentry⟩ := E.code
  have hid : id < a.classes.size := (List.findIdx?_eq_some_iff_findIdx_eq.mp E.found).1
  have hmain := construct_lt W A hid E.construct
  rw [hentry]
  refine ⟨Nat.le_refl _, ?_⟩
  simp only [List.forall_mem_cons]
  exact ⟨hmain, ⟨hmain, (Array.getElem?_eq_some_iff.mp hm).1⟩, trivial, by simp⟩

end BoundsLemmas

end

open BoundsLemmas

/-- The image of a program is valid. -/
theorem Lower.image_valid {p : Program Span} {a : Analysis} {image : Image}
    (hcheck : Check.program p = .ok a) (hlower : Lower.image a = .ok image) :
    image.validate = .ok () := by
  have W := Check.program_wellTyped hcheck
  have A := Lower.image_assembled hlower
  obtain ⟨hmagic, hversion⟩ : image.magic = Image.formatMagic ∧ image.version = Image.formatVersion := by
    simp only [Lower.image, bind_eq_ok, pure_eq_ok] at hlower
    obtain ⟨_, _, rfl⟩ := hlower
    exact ⟨rfl, rfl⟩
  obtain ⟨id, E⟩ := A.entry
  obtain ⟨hne, hmain⟩ := TypeId.ne_unit_of_construct E.construct
  have hid : id < a.classes.size := (List.findIdx?_eq_some_iff_findIdx_eq.mp E.found).1
  obtain ⟨c, hc, _⟩ := construct_of_class W A hid hne
  have hconstructs : image.constructsDefect? 0 image.constructs.toList = none := by
    refine constructsDefect_none fun k c hc => ?_
    rw [Nat.zero_add, Array.getElem?_toList] at *
    obtain ⟨id, hid, hne, rfl⟩ := exists_class W A (Array.getElem?_eq_some_iff.mp hc).1
    exact classDefect_none W A hid hne hc
  have hproblem : image.problem? = none := by
    rw [Image.problem?, if_neg (not_not.mpr hmagic), if_neg (not_not.mpr hversion), ← hmain, hc,
      hconstructs, chunkDefect_none (entry_supported W A)]
    rfl
  rw [Image.validate, hproblem]

/-- A program with a field, a local name, a loop and two constants. -/
def oneRound : String :=
  "class Main : IO\n\x7b\n public word: string = \"round\"\n\n public new()\n \x7b\n let going = true\n" ++
    " while going do\n \x7b\n this.out(this.word + \"!\")\n going = false\n \x7d\n \x7d\n\x7d\n"

/-- The chunk of its constructor, which calls that of its parent and has the loop. -/
def oneRoundConstructor : Chunk where
  code := #[.load 0, .invoke 4 0, .pop, .pushTrue, .store 1, .load 1, .jumpIfFalse 19, .load 0, .load 0,
    .getField 0, .pushConst 1, .callVirtual 2 4, .callVirtual 5 17, .pop, .pushFalse, .dup, .store 1, .pop,
    .jump 5, .pushNull, .return]
  arguments := 1
  locals := 2

theorem oneRound_image : ∃ image, Image.ofSource oneRound = .ok image ∧ image.constants.size = 2 ∧
    ∃ c, image.construct? 5 = some c ∧ c.bodies.find? 0 = some (.compiled oneRoundConstructor) := by
  have hrun : (Image.ofSource oneRound).toOption.bind (fun image =>
      (image.construct? 5).bind fun c => (c.bodies.find? 0).map fun body => (image.constants.size, body)) =
        some (2, .compiled oneRoundConstructor) := by decide +kernel
  simp only [Option.bind_eq_some_iff, Option.map_eq_some_iff, Prod.mk.injEq] at hrun
  obtain ⟨image, himage, c, hc, _, hfind, hsize, rfl⟩ := hrun
  exact ⟨image, toOption_eq_some.mp himage, hsize, c, hc, hfind⟩

/-- Its image, in which all of these are referred to, is valid. -/
theorem oneRound_image_valid : ∃ p a image, Program.ofSource oneRound = .ok p ∧
    Check.program p = .ok a ∧ Lower.image a = .ok image ∧ image.constants.size = 2 ∧
    image.validate = .ok () := by
  obtain ⟨image, himage, hsize, _⟩ := oneRound_image
  obtain ⟨p, a, hp, _, hcheck, hlower⟩ := Image.ofSource_stages himage
  exact ⟨p, a, image, hp, hcheck, hlower, hsize, Lower.image_valid hcheck hlower⟩

end ClassLang
