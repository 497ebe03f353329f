import ClassLang.Proofs.Resolution
import ClassLang.Proofs.Stages

/-!
# What can be lowered

A checked program with an entry class has an image exactly if its code stays within the limits of the
image format and no expression needs a construct for the unit type, which has none (`image_ok_iff`).
Nothing else stops the lowering: the check has excluded unknown fields, names, classes and parents, and
trees that are not callees or targets.

The check does not exclude the unit type everywhere. It lets a program test for it, cast to it and
compare an option of it, and such a program ends with a build error and not with an image.
-/

namespace ClassLang

/-! ## Limits -/

/-- The field whose slot the code of a node names. The callee of a call names a method; it has no
type. -/
def Expr.fieldUsed? (t : ClassTable) : Expr Typing → Option Field
  | .member o x ⟨_, some _⟩ =>
    ((o.note.type.bind Ty.class?).bind (t.lookupField? · x.name)).map (·.2)
  | _ => none

/-- The code of a node needs a construct that there is none for: the node compares an option of the unit
type, tests for the unit type, or casts to it or to null. -/
def Expr.NeedsUnit (t : ClassTable) : Expr Typing → Prop
  | .binary _ left _ _ => left.note.type = some (.option TypeId.unit)
  | .instanceTest _ w _ => ∃ τ, t.resolveType w = .ok τ ∧ τ.class? = some TypeId.unit
  | .cast _ w _ => ∃ τ, t.resolveType w = .ok τ ∧ (τ.class? = some TypeId.unit ∨ τ = .null)
  | _ => False

/-- Nothing about a node, its parts apart, keeps it from having code. -/
@[mk_iff] structure Expr.Lowerable (t : ClassTable) (e : Expr Typing) : Prop where
  offset : ∀ f, e.fieldUsed? t = some f → f.offset ≤ 65535
  construct : ¬ e.NeedsUnit t

namespace Stmt

variable {ν : Type}

/-- The number of names that a statement leaves bound. -/
def bound : Stmt ν → Nat
  | .define .. => 1
  | _ => 0

mutual

/-- The number of names that a statement has bound at once at most. -/
def slots : Stmt ν → Nat
  | .define .. => 1
  | .return .. | .expression .. => 0
  | .ifThen _ branch _ | .while _ branch _ => branch.slots
  | .ifElse _ branch otherwise _ => max branch.slots otherwise.slots
  | .block statements _ => slotsList statements

/-- The number of names that statements in one scope have bound at once at most. -/
def slotsList : List (Stmt ν) → Nat
  | [] => 0
  | s :: ss => max s.slots (s.bound + slotsList ss)

end

theorem bound_le_slots (s : Stmt ν) : s.bound ≤ s.slots := by
  cases s with
  | define => exact Nat.le_refl 1
  | _ => exact Nat.zero_le _

end Stmt

/-- The number of slots that the chunk of a member needs: one for the receiver, one for each parameter,
and those of the body. -/
def MemberDecl.slots {ν : Type} : MemberDecl ν → Nat
  | .field _ => 1
  | .method d => 1 + d.params.length + d.body.slots
  | .constructor d => 1 + d.params.length + d.body.slots

/-- A member has few enough slots and nothing about its expressions is in the way. -/
@[mk_iff] structure MemberDecl.Lowerable (t : ClassTable) (m : MemberDecl Typing) : Prop where
  slots : m.slots ≤ 65535
  nodes : ∀ e ∈ m.nodes, e.Lowerable t

/-- All members of a class can be lowered, and the slots of the fields that it initializes can be
named. -/
@[mk_iff] structure ClassDecl.Lowerable (t : ClassTable) (id : TypeId) (d : ClassDecl Typing) : Prop where
  members : ∀ m ∈ d.members, m.Lowerable t
  initialized : ∀ fd ∈ d.fields, fd.initializer.isSome = true → ∀ owner f,
    t.lookupField? id fd.name.name = some (owner, f) → f.offset ≤ 65535

/-- The program stays within the limits of the image format and needs no construct that there is
none for. -/
def Analysis.Lowerable (a : Analysis) : Prop :=
  ∀ (i : Nat) d, a.program.classes[i]? = some d → d.Lowerable a.classes (TypeId.first + i)

namespace Lower

/-! ## Steps that succeed under a condition -/

section

variable {α β : Type} {c d : Prop}

/-- From whatever pools, a step of lowering succeeds if `c` holds, and fails with a defect if not. -/
def Decides (c : Prop) (x : Lower α) : Prop :=
  ∀ p, (c → ∃ v p', Gives x p v p') ∧ (¬ c → ∃ defect, x.run p = .error (.defect defect))

namespace Decides

theorem congr {x : Lower α} (h : Decides c x) (hcd : c ↔ d) : Decides d x :=
  propext hcd ▸ h

theorem of_true {x : Lower α} (h : ∀ p, ∃ v p', Gives x p v p') : Decides True x :=
  fun p => ⟨fun _ => h p, fun hn => absurd trivial hn⟩

theorem pure {v : α} : Decides True (pure v : Lower α) :=
  of_true fun p => ⟨v, p, pure_gives.mpr ⟨rfl, rfl⟩⟩

theorem fail {defect : LoweringDefect} : Decides False (fail defect : Lower α) :=
  fun _ => ⟨False.elim, fun _ => ⟨defect, rfl⟩⟩

theorem member {key : MemberKey} : Decides True (member key) :=
  of_true fun _ => ⟨_, _, rfl⟩

theorem constant {k : Constant} : Decides True (constant k) :=
  of_true fun _ => ⟨_, _, rfl⟩

/-- A step that cannot touch the pools. -/
theorem lift {x : Except BuildError α} (h : c → ∃ v, x = .ok v)
    (hn : ¬ c → ∃ defect, x = .error (.defect defect)) : Decides c (liftM x : Lower α) := by
  refine fun p => ⟨fun hc => ?_, fun hc => ?_⟩
  · obtain ⟨v, rfl⟩ := h hc
    exact ⟨v, p, rfl⟩
  · obtain ⟨defect, rfl⟩ := hn hc
    exact ⟨defect, rfl⟩

/-- One step after the other. The second one may depend on the result of the first. -/
theorem bind {x : Lower α} {f : α → Lower β} (hx : Decides c x)
    (hf : c → ∀ p v p', Gives x p v p' → Decides d (f v)) : Decides (c ∧ d) (x >>= f) := by
  intro p
  by_cases hc : c
  · obtain ⟨v, p', hv⟩ := (hx p).1 hc
    have hrun : (x >>= f).run p = (f v).run p' := by
      rw [StateT.run_bind, hv]
      rfl
    obtain ⟨hok, herror⟩ := hf hc p v p' hv p'
    refine ⟨fun h => ?_, fun h => ?_⟩
    · obtain ⟨w, q, hw⟩ := hok h.2
      exact ⟨w, q, hrun.trans hw⟩
    · obtain ⟨defect, he⟩ := herror fun hd => h ⟨hc, hd⟩
      exact ⟨defect, hrun.trans he⟩
  · obtain ⟨defect, he⟩ := (hx p).2 hc
    refine ⟨fun h => absurd h.1 hc, fun _ => ⟨defect, ?_⟩⟩
    rw [StateT.run_bind, he]
    rfl

/-- A first step that always succeeds. -/
theorem after {x : Lower α} {f : α → Lower β} (hx : Decides True x)
    (hf : ∀ v, Decides d (f v)) : Decides d (x >>= f) :=
  (hx.bind fun _ _ v _ _ => hf v).congr (true_and _ ▸ Iff.rfl)

/-- A last step that always succeeds. -/
theorem before {x : Lower α} {f : α → Lower β} (hx : Decides c x)
    (hf : ∀ v, Decides True (f v)) : Decides c (x >>= f) :=
  (hx.bind fun _ _ v _ _ => hf v).congr (and_true _ ▸ Iff.rfl)

theorem mapM {f : α → Lower β} {c : α → Prop} {as : List α} (h : ∀ a ∈ as, Decides (c a) (f a)) :
    Decides (∀ a ∈ as, c a) (as.mapM f) := by
  induction as with
  | nil => exact Decides.pure.congr (by simp)
  | cons a as ih =>
    obtain ⟨ha, has⟩ := List.forall_mem_cons.mp h
    rw [List.mapM_cons]
    refine (ha.bind fun _ _ _ _ _ => (ih has).before fun _ => .pure).congr ?_
    rw [List.forall_mem_cons]

end Decides

end

/-! ## Expressions -/

namespace LowerableLemmas

variable {t : ClassTable} {σ : Slots} {env : Environment}

theorem typeOf_eq {e : Expr Typing} {τ : Ty} (h : e.note.type = some τ) :
    typeOf e = pure τ := by
  rw [typeOf, h]

theorem testTarget_eq {w : TypeName} {τ : Ty} (h : t.resolveType w = .ok τ) :
    testTarget t w = pure τ := by
  rw [testTarget, h]

theorem constructOf_decides (id : TypeId) : Decides (id ≠ TypeId.unit) (constructOf t id) := by
  unfold constructOf
  by_cases hid : id = TypeId.unit
  · subst hid
    exact Decides.fail.congr (by simp)
  · rw [TypeId.construct_of_ne hid]
    exact Decides.pure.congr (by simp [hid])

/-- A field that the check has found. -/
theorem fieldOffset_decides {id : TypeId} {x : String} {owner : TypeId} {f : Field}
    (h : t.lookupField? id x = some (owner, f)) :
    Decides (f.offset ≤ 65535) (fieldOffset t id x) := by
  unfold fieldOffset
  rw [h]
  by_cases hf : f.offset ≤ 65535
  · simp only [if_pos hf]
    exact Decides.pure.congr (by simp [hf])
  · simp only [if_neg hf]
    exact Decides.fail.congr (by simp [hf])

theorem number_decides (x : Float) : Decides True (number x) := by
  unfold number
  split
  · exact .pure
  · split
    · exact .pure
    · rw [map_eq_pure_bind]
      exact .after .constant fun _ => .pure

/-- Every visible name has a slot. -/
theorem lookup_visible (hσ : Numbered σ (env.visible.map (·.name))) {x : String} {τ : Ty}
    (hx : env.typeOf? x = some τ) : ∃ i, σ.lookup x = .ok i := by
  have hall : ∀ visible : List Binding, ((visible.find? (·.name == x)).map (·.type)) = some τ →
      ∃ i, (slotsOf (visible.map (·.name))).lookup x = some i := by
    intro visible
    induction visible with
    | nil => simp
    | cons b visible ih =>
      intro h
      rw [List.map_cons, slotsOf, List.lookup_cons]
      by_cases hb : b.name = x
      · simp [hb]
      · rw [List.find?_cons_of_neg (by simpa using hb)] at h
        simpa [beq_eq_false_iff_ne.mpr (Ne.symm hb)] using ih h
  rw [Environment.typeOf_eq] at hx
  obtain ⟨i, hi⟩ := hall _ hx
  refine ⟨i, ?_⟩
  rw [Slots.lookup, EmittedLemmas.lookup_numbered hσ, hi]

/-- A visible name. -/
theorem lookup_decides (hσ : Numbered σ (env.visible.map (·.name))) {x : String} {τ : Ty}
    (hx : env.typeOf? x = some τ) : Decides True (liftM (σ.lookup x) : Lower Nat) :=
  .lift (fun _ => lookup_visible hσ hx) fun h => absurd trivial h

/-- The instruction of a test or a cast to a class. -/
theorem target_decides {id : TypeId} {τ : Ty} {code : List Instr} (i : Nat → Instr)
    (hτ : τ.class? = some id) :
    Decides (¬ τ.class? = some TypeId.unit)
      (do return code ++ [i (← constructOf t id)] : Lower (List Instr)) := by
  refine ((constructOf_decides id).before fun _ => .pure).congr ?_
  simp [hτ]

theorem exprs_decides {es : List (Expr Typing)}
    (h : ∀ e ∈ es, Decides (∀ n ∈ e.nodes, n.Lowerable t) (expr t σ e)) :
    Decides (∀ n ∈ Expr.nodesList es, n.Lowerable t) (exprs t σ es) := by
  induction es with
  | nil => exact Decides.pure.congr (by simp [Expr.nodesList])
  | cons e es ih =>
    obtain ⟨he, hes⟩ := List.forall_mem_cons.mp h
    refine (he.bind fun _ _ _ _ _ => (ih hes).before fun _ => .pure).congr ?_
    rw [Expr.nodesList, List.forall_mem_append]

/-- The node of a field, the object apart. -/
theorem lowerable_member {o : Expr Typing} {x : Ident} {s : Span} {id owner : TypeId} {f : Field}
    {τ : Ty} (ho : Typed env o (.plain id)) (hf : env.classes.lookupField? id x.name = some (owner, f)) :
    (Expr.member o x ⟨s, some τ⟩).Lowerable env.classes ↔ f.offset ≤ 65535 := by
  simp [Expr.lowerable_iff, Expr.fieldUsed?, Expr.NeedsUnit, ho.note_type, hf, Ty.class?]

theorem lowerable_binary {op : BinaryOp} {l r : Expr Typing} {s : Typing} {τ : Ty}
    (hl : Typed env l τ) :
    (Expr.binary op l r s).Lowerable t ↔ τ ≠ .option TypeId.unit := by
  simp [Expr.lowerable_iff, Expr.fieldUsed?, Expr.NeedsUnit, hl.note_type]

theorem lowerable_instanceTest {e : Expr Typing} {w : TypeName} {s : Typing} {τ : Ty}
    (hw : t.resolveType w = .ok τ) :
    (Expr.instanceTest e w s).Lowerable t ↔ ¬ τ.class? = some TypeId.unit := by
  simp [Expr.lowerable_iff, Expr.fieldUsed?, Expr.NeedsUnit, hw]

theorem lowerable_cast {e : Expr Typing} {w : TypeName} {s : Typing} {τ : Ty}
    (hw : t.resolveType w = .ok τ) :
    (Expr.cast e w s).Lowerable t ↔ ¬ (τ.class? = some TypeId.unit ∨ τ = .null) := by
  simp [Expr.lowerable_iff, Expr.fieldUsed?, Expr.NeedsUnit, hw]

/-- The construct that a call of an operator names is missing only if the left operand is an option of
the unit type. -/
theorem operator_unit {op : BinaryOp} {τ : Ty} {id : TypeId} (h : OperatorClass op τ id) :
    classOf τ ≠ TypeId.unit ↔ τ ≠ .option TypeId.unit := by
  cases τ with
  | plain c =>
    obtain ⟨hc, hid⟩ : Ty.plain c = .plain id ∧ id ≠ TypeId.unit := h
    cases hc
    simp [classOf, Ty.class?, hid]
  | option c => simp [classOf, Ty.class?]
  | null => exact iff_of_true (by decide) (by simp)

/-- An instruction of its own is for numbers and truth values. -/
theorem ne_of_dedicated {op : BinaryOp} {τ υ : Ty} (h : isDedicated op τ υ = true) :
    τ ≠ .option TypeId.unit := by
  rintro rfl
  cases op <;> simp [isDedicated, Ty.number, Ty.boolean] at h

/-- A node that neither names a slot nor needs a construct is no obstacle. -/
theorem of_parts {x : Lower (List Instr)} {e : Expr Typing} {parts : List (Expr Typing)}
    (hnodes : e.nodes = e :: parts) (hfield : e.fieldUsed? t = none) (hunit : ¬ e.NeedsUnit t)
    (h : Decides (∀ n ∈ parts, n.Lowerable t) x) : Decides (∀ n ∈ e.nodes, n.Lowerable t) x := by
  refine h.congr ?_
  have he : e.Lowerable t := ⟨fun f hf => by simp [hfield] at hf, hunit⟩
  rw [hnodes, List.forall_mem_cons, and_iff_right he]

/-- Such a node without parts always has code. -/
theorem of_leaf {x : Lower (List Instr)} {e : Expr Typing} (hnodes : e.nodes = [e])
    (hfield : e.fieldUsed? t = none) (hunit : ¬ e.NeedsUnit t) (h : Decides True x) :
    Decides (∀ n ∈ e.nodes, n.Lowerable t) x :=
  of_parts hnodes hfield hunit (h.congr (by simp))

theorem of_zip {α β : Type} {P : α → Prop} {as : List α} {bs : List β} (hlen : as.length = bs.length)
    (h : ∀ x ∈ as.zip bs, P x.1) : ∀ a ∈ as, P a := by
  intro a ha
  rw [← List.map_fst_zip (Nat.le_of_eq hlen)] at ha
  obtain ⟨x, hx, rfl⟩ := List.mem_map.mp ha
  exact h x hx

end LowerableLemmas

open LowerableLemmas

/-- Lowering a well-typed expression succeeds exactly if nothing about its nodes is in the way. -/
theorem expr_decides {a : Analysis} (W : WellTyped a) {σ : Slots} {env : Environment}
    (hcls : env.classes = a.classes) (hσ : Numbered σ (env.visible.map (·.name))) {e : Expr Typing}
    {τ : Ty} (he : Typed env e τ) :
    Decides (∀ n ∈ e.nodes, n.Lowerable a.classes) (expr a.classes σ e) := by
  rw [← hcls]
  induction he with
  | number => exact of_leaf rfl rfl not_false ((number_decides _).before fun _ => .pure)
  | string => exact of_leaf rfl rfl not_false (Decides.constant.before fun _ => .pure)
  | boolean | null | this | base => exact of_leaf rfl rfl not_false .pure
  | name hx => exact of_leaf rfl rfl not_false ((lookup_decides hσ hx).before fun _ => .pure)
  | member ho _ hf _ ih =>
    simp only [expr, typeOf_eq ho.note_type, pure_bind]
    refine (ih.bind fun _ _ _ _ _ => (fieldOffset_decides hf).before fun _ => .pure).congr ?_
    rw [Expr.nodes, List.forall_mem_cons, lowerable_member ho hf, and_comm]
  | @call e x n s es id owner m τs ho hunit _ _ hlen _ _ iho ihes =>
    have hcallee : Decides (∀ p ∈ (Expr.member e x (.untyped n)).nodes, p.Lowerable env.classes)
        (expr env.classes σ e) := of_parts rfl rfl not_false iho
    simp only [expr, typeOf_eq ho.note_type, pure_bind]
    refine of_parts rfl rfl not_false (.after .member fun _ => ?_)
    refine ((constructOf_decides id).bind fun _ _ _ _ _ => hcallee.bind fun _ _ _ _ _ =>
      (exprs_decides (of_zip hlen ihes)).before fun _ => .pure).congr ?_
    rw [List.forall_mem_append, and_iff_right hunit]
  | @new c s es id m τs hfind hctor _ hlen _ _ ihes =>
    have hunit : id ≠ TypeId.unit := (W.constructor_inheritable (hcls ▸ hctor)).ne_unit
    simp only [expr, ClassTable.resolve_ok.mpr hfind]
    refine of_parts rfl rfl not_false (((constructOf_decides id).bind fun _ _ _ _ _ => .after .member
      fun _ => (exprs_decides (of_zip hlen ihes)).before fun _ => .pure).congr ?_)
    rw [and_iff_right hunit]
  | @assignName x n s v τ υ hx _ _ ih =>
    have htarget : ∀ p ∈ (Expr.name x ⟨n, some τ⟩ : Expr Typing).nodes, p.Lowerable env.classes :=
      List.forall_mem_singleton.mpr ⟨by simp [Expr.fieldUsed?], not_false⟩
    refine of_parts rfl rfl not_false (.after (lookup_decides hσ hx) fun _ =>
      (ih.before fun _ => .pure).congr ?_)
    rw [List.forall_mem_append, and_iff_right htarget]
  | assignMember ho _ hf _ _ _ _ iho ihv =>
    simp only [expr, typeOf_eq ho.note_type, pure_bind]
    refine of_parts rfl rfl not_false (((fieldOffset_decides hf).bind fun _ _ _ _ _ => iho.bind
      fun _ _ _ _ _ => ihv.before fun _ => .pure).congr ?_)
    rw [List.forall_mem_append, Expr.nodes, List.forall_mem_cons, lowerable_member ho hf, and_assoc]
  | @binary op l r s τ υ id owner m hl hr hop _ _ _ ihl ihr =>
    simp only [expr, typeOf_eq hl.note_type, typeOf_eq hr.note_type, pure_bind]
    refine (ihl.bind fun _ _ _ _ _ => ihr.bind (d := τ ≠ .option TypeId.unit)
      fun _ _ _ _ _ => ?_).congr ?_
    · split
      · next hd => exact Decides.pure.congr (iff_of_true trivial (ne_of_dedicated hd))
      · refine .after .member fun _ => ((constructOf_decides _).before fun _ => ?_).congr
          (operator_unit hop)
        split
        · exact .pure
        · exact .pure
    · rw [Expr.nodes, List.forall_mem_cons, List.forall_mem_append, lowerable_binary hl]
      exact and_assoc.symm.trans and_comm
  | unary ho hunit _ _ ih =>
    simp only [expr, typeOf_eq ho.note_type, pure_bind]
    refine of_parts rfl rfl not_false (ih.before fun _ => ?_)
    split
    · exact .pure
    · exact ((constructOf_decides _).before fun _ => .after .member fun _ => .pure).congr
        (iff_of_true hunit trivial)
  | assert _ ih => exact of_parts rfl rfl not_false (ih.before fun _ => .pure)
  | @instanceTest e w s τ υ _ hw _ ih =>
    simp only [expr, testTarget_eq hw, pure_bind]
    refine (ih.bind (d := ¬ υ.class? = some TypeId.unit) fun _ _ _ _ _ => ?_).congr ?_
    · cases υ with
      | null => exact Decides.pure.congr (by simp [Ty.class?])
      | plain id => exact target_decides (.isInstance · false) rfl
      | option id => exact target_decides (.isInstance · true) rfl
    · rw [Expr.nodes, List.forall_mem_cons, lowerable_instanceTest hw, and_comm]
  | @cast e w s τ υ _ hw _ ih =>
    simp only [expr, testTarget_eq hw, pure_bind]
    refine (ih.bind (d := ¬ (υ.class? = some TypeId.unit ∨ υ = .null)) fun _ _ _ _ _ => ?_).congr ?_
    · cases υ with
      | null => exact Decides.fail.congr (by simp)
      | plain id => exact (target_decides (τ := .plain id) (.cast · false) rfl).congr (by simp)
      | option id => exact (target_decides (τ := .option id) (.cast · true) rfl).congr (by simp)
    · rw [Expr.nodes, List.forall_mem_cons, lowerable_cast hw, and_comm]

/-! ## Statements -/

/-- The slots are those of the visible names, and there are not more of them than there may be. -/
structure Seats (a : Analysis) (env : Environment) (σ : Slots) : Prop where
  classes : env.classes = a.classes
  numbered : Numbered σ (env.visible.map (·.name))
  room : env.visible.length + 1 ≤ Slots.limit

namespace LowerableLemmas

variable {a : Analysis} {env env' : Environment} {σ σ' : Slots}

theorem Seats.enter (h : Seats a env σ) : Seats a env.enter σ.enter :=
  ⟨h.classes, by simpa using EmittedLemmas.numbered_enter h.numbered, by simpa using h.room⟩

/-- What a statement does to the environment. -/
theorem env_after {s : Stmt Typing} (h : StmtTyped env s env') : env'.classes = env.classes ∧
    env'.visible.map (·.name) = s.visible (env.visible.map (·.name)) ∧
    env'.visible.length = env.visible.length + s.bound := by
  cases h with
  | @define _ _ x w e span τ υ _ _ _ hbind =>
    have hvisible := Environment.bind_visible hbind
    simp only [Environment.bind, bind_eq_ok, pure_eq_ok] at hbind
    obtain ⟨scopes, _, rfl⟩ := hbind
    rw [hvisible]
    exact ⟨rfl, rfl, rfl⟩
  | «return» | returnNone | ifThen | ifElse | «while» | block | expression => exact ⟨rfl, rfl, rfl⟩

/-- The slots behind a statement that has been lowered. -/
theorem Seats.after (h : Seats a env σ) {s : Stmt Typing} (hs : StmtTyped env s env') {start : Nat}
    {p p' : Pools} {code : List Instr} (hlower : Gives (stmt a.classes σ start s) p (code, σ') p')
    (hroom : env.visible.length + 1 + s.slots ≤ Slots.limit) : Seats a env' σ' := by
  obtain ⟨hclasses, hnames, hlen⟩ := env_after hs
  have hbound := s.bound_le_slots
  refine ⟨hclasses.trans h.classes, ?_, by omega⟩
  rw [hnames]
  exact (stmt_emits h.numbered hlower .refl).numbered

/-- Behind a branch, the slots are what they were in front of it. -/
theorem Seats.exit (h : Seats a env σ) {s : Stmt Typing} {start : Nat} {p p' : Pools}
    {code : List Instr} (hlower : Gives (stmt a.classes σ.enter start s) p (code, σ') p') :
    Seats a env σ'.exit := by
  have hemits := stmt_emits (EmittedLemmas.numbered_enter h.numbered) hlower .refl
  exact ⟨h.classes, (EmittedLemmas.numbered_exit h.numbered hemits.scope).1, h.room⟩

theorem declare_decides (h : Seats a env σ) (x : String) :
    Decides (env.visible.length + 1 + 1 ≤ Slots.limit)
      (liftM (σ.declare x) : Lower (Nat × Slots)) := by
  have hnext : σ.next = env.visible.length + 1 := by simpa using h.numbered.next
  refine .lift (fun hlt => ?_) fun hnot => ?_
  · rw [Slots.declare, hnext, if_pos (show _ < _ from hlt)]
    exact ⟨_, rfl⟩
  · rw [Slots.declare, hnext, if_neg (show ¬ _ < _ from hnot)]
    exact ⟨_, rfl⟩

end LowerableLemmas

mutual

/-- Lowering a well-typed statement succeeds exactly if nothing about its nodes is in the way and there
are slots for all of its names. -/
theorem stmt_decides {a : Analysis} (W : WellTyped a) : ∀ {s : Stmt Typing} {env env' : Environment}
    {σ : Slots} {start : Nat}, StmtTyped env s env' → Seats a env σ →
    Decides ((∀ n ∈ s.nodes, n.Lowerable a.classes) ∧
      env.visible.length + 1 + s.slots ≤ Slots.limit) (stmt a.classes σ start s)
  | .define x w e s, env, _, σ, start, .define he _ _ _, hσ =>
    (expr_decides W hσ.classes hσ.numbered he).bind fun _ _ _ _ _ =>
      (declare_decides hσ x.name).before fun _ => .pure
  | .return (some e) s, env, _, σ, start, .return he _ _, hσ => by
    refine ((expr_decides W hσ.classes hσ.numbered he).before fun _ => .pure).congr ?_
    simp [Stmt.nodes, Stmt.slots, Expr.nodesList, hσ.room]
  | .return none s, env, _, σ, start, .returnNone _, hσ =>
    Decides.pure.congr (by simp [Stmt.nodes, Stmt.slots, Expr.nodesList, hσ.room])
  | .ifThen c b s, env, _, σ, start, .ifThen hc hb, hσ => by
    refine ((expr_decides W hσ.classes hσ.numbered hc).bind fun _ _ _ _ _ =>
      (stmt_decides W hb (Seats.enter hσ)).before fun _ => .pure).congr ?_
    rw [Stmt.nodes, Stmt.slots, List.forall_mem_append, and_assoc, Environment.visible_enter]
  | .ifElse c b o s, env, _, σ, start, .ifElse hc hb ho, hσ => by
    refine ((expr_decides W hσ.classes hσ.numbered hc).bind fun _ _ _ _ _ =>
      (stmt_decides W hb (Seats.enter hσ)).bind fun _ _ _ _ hlower =>
      (stmt_decides W ho (Seats.enter (Seats.exit hσ hlower))).before fun _ => .pure).congr ?_
    rw [Stmt.nodes, Stmt.slots, List.forall_mem_append, List.forall_mem_append,
      Environment.visible_enter, ← Nat.add_max_add_left, Nat.max_le, and_and_and_comm]
    exact and_assoc.symm
  | .while c b s, env, _, σ, start, .while hc hb, hσ => by
    refine ((expr_decides W hσ.classes hσ.numbered hc).bind fun _ _ _ _ _ =>
      (stmt_decides W hb (Seats.enter hσ)).before fun _ => .pure).congr ?_
    rw [Stmt.nodes, Stmt.slots, List.forall_mem_append, and_assoc, Environment.visible_enter]
  | .block ss s, env, _, σ, start, .block hss, hσ => by
    refine ((stmts_decides W hss (Seats.enter hσ)).before fun _ => .pure).congr ?_
    rw [Stmt.nodes, Stmt.slots, Environment.visible_enter]
  | .expression e s, env, _, σ, start, .expression he, hσ => by
    refine ((expr_decides W hσ.classes hσ.numbered he).before fun _ => .pure).congr ?_
    simp [Stmt.nodes, Stmt.slots, hσ.room]

theorem stmts_decides {a : Analysis} (W : WellTyped a) : ∀ {ss : List (Stmt Typing)}
    {env env' : Environment} {σ : Slots} {start : Nat}, StmtsTyped env ss env' → Seats a env σ →
    Decides ((∀ n ∈ Stmt.nodesList ss, n.Lowerable a.classes) ∧
      env.visible.length + 1 + Stmt.slotsList ss ≤ Slots.limit) (stmts a.classes σ start ss)
  | [], env, _, σ, start, .nil, hσ =>
    Decides.pure.congr (by simp [Stmt.nodesList, Stmt.slotsList, hσ.room])
  | s :: ss, env, _, σ, start, .cons hs hss, hσ => by
    refine ((stmt_decides W hs hσ).bind fun hc _ _ _ hlower =>
      (stmts_decides W hss (Seats.after hσ hs hlower hc.2)).before fun _ => .pure).congr ?_
    rw [Stmt.nodesList, Stmt.slotsList, List.forall_mem_append, (env_after hs).2.2,
      ← Nat.add_max_add_left, Nat.max_le, Nat.add_right_comm _ s.bound, Nat.add_assoc _ s.bound,
      and_and_and_comm]

end

/-! ## Members -/

namespace LowerableLemmas

variable {a : Analysis}

theorem addParams_decides {b : ChunkBuilder} {xs : List String} (hroom : b.slots.next ≤ Slots.limit) :
    (b.slots.next + xs.length ≤ Slots.limit → ∃ b', b.addParams xs = .ok b') ∧
      (¬ b.slots.next + xs.length ≤ Slots.limit →
        ∃ defect, b.addParams xs = .error (.defect defect)) := by
  induction xs generalizing b with
  | nil => exact ⟨fun _ => ⟨b, rfl⟩, fun h => absurd hroom h⟩
  | cons x xs ih =>
    rw [List.length_cons, Nat.add_comm xs.length, ← Nat.add_assoc]
    by_cases hlt : b.slots.next < Slots.limit
    · obtain ⟨i, b₁, hdecl, hnext⟩ : ∃ i b₁, b.declare x = .ok (i, b₁) ∧
          b₁.slots.next = b.slots.next + 1 := by
        simp only [ChunkBuilder.declare, Slots.declare, if_pos hlt]
        exact ⟨_, _, rfl, rfl⟩
      have hstep : b.addParams (x :: xs) =
          ChunkBuilder.addParams { b₁ with arguments := b₁.arguments + 1 } xs := by
        rw [ChunkBuilder.addParams, hdecl]
        rfl
      rw [hstep, ← hnext]
      exact ih (b := { b₁ with arguments := b₁.arguments + 1 }) (hnext ▸ hlt)
    · refine ⟨fun h => absurd (Nat.le_trans (Nat.le_add_right _ _) h) hlt, fun _ => ⟨.tooManyLocals, ?_⟩⟩
      simp only [ChunkBuilder.addParams, ChunkBuilder.declare, Slots.declare, if_neg hlt]
      rfl

theorem start_decides (params : List Param) : Decides (1 + params.length ≤ Slots.limit)
    (liftM (ChunkBuilder.start (params.map (·.name.name))) : Lower ChunkBuilder) := by
  have hnext : (1 + params.length ≤ Slots.limit) ↔
      Slots.start.next + (params.map (·.name.name)).length ≤ Slots.limit := by
    rw [List.length_map]
    rfl
  obtain ⟨hok, herror⟩ := addParams_decides (b := ⟨#[], 1, .start⟩) (by decide)
  exact .lift (fun h => hok (hnext.mp h)) fun h => herror (mt hnext.mpr h)

theorem memberChunk_decides (W : WellTyped a) {id : TypeId} {result : Ty} {params : List Param}
    {types : List Ty} {env env' : Environment} {s : Stmt Typing}
    {before : Slots → Lower (List Instr)} {c : Prop}
    (hbound : ParamsBound a.classes id result params types env) (hlen : types.length = params.length)
    (hs : StmtTyped env s env') (hbefore : ∀ σ, Seats a env σ → Decides c (before σ)) :
    Decides (1 + params.length + s.slots ≤ Slots.limit ∧ c ∧ ∀ n ∈ s.nodes, n.Lowerable a.classes)
      (memberChunk a.classes params before (some s)) := by
  have hcount : env.visible.length = params.length := by
    simpa [paramNames] using congrArg List.length (hbound.names hlen)
  unfold memberChunk
  refine ((start_decides params).bind (d := c ∧ (∀ n ∈ s.nodes, n.Lowerable a.classes) ∧
    env.visible.length + 1 + s.slots ≤ Slots.limit) fun hroom _ b _ hb => ?_).congr ?_
  · have hstart := (lift_gives.mp hb).1
    have hσ : Seats a env b.slots :=
      ⟨hbound.inside.classes, hbound.names hlen ▸ (AssembledLemmas.start_ok hstart).2.2.1, by omega⟩
    exact (hbefore _ hσ).bind fun _ _ _ _ _ => (stmt_decides W hs hσ).before fun _ => .pure
  · rw [hcount]
    constructor
    · rintro ⟨_, hc, hnodes, hslots⟩
      exact ⟨by omega, hc, hnodes⟩
    · rintro ⟨hslots, hc, hnodes⟩
      exact ⟨by omega, hc, hnodes, by omega⟩

theorem method_decides (W : WellTyped a) {id : TypeId} {r : ClassRecord} {d : MethodDecl Typing}
    (h : MethodTyped a.classes id r d) :
    Decides ((MemberDecl.method d).Lowerable a.classes) (method a.classes d) := by
  obtain ⟨m, _, hlen, _, env, env', hbound, hbody⟩ := h
  refine ((memberChunk_decides W hbound hlen hbody fun _ _ => .pure).before fun _ =>
    .before .member fun _ => .pure).congr ?_
  rw [MemberDecl.lowerable_iff, true_and]
  rfl

theorem baseCall_decides (W : WellTyped a) {parent : Nat} {env : Environment} {σ : Slots}
    {es : List (Expr Typing)} {params : List Ty} (hσ : Seats a env σ)
    (hes : ArgumentsTyped env es params) :
    Decides (∀ n ∈ Expr.nodesList es, n.Lowerable a.classes) (baseCall a.classes parent es σ) := by
  obtain ⟨τs, hlen, htyped, _⟩ := hes
  exact (exprs_decides (of_zip hlen fun x hx =>
    expr_decides W hσ.classes hσ.numbered (htyped x hx))).before fun _ => .before .member fun _ => .pure

theorem constructor_decides (W : WellTyped a) {id p : Nat} {parent : Nat} {r : ClassRecord}
    {d : Option (ConstructorDecl Typing)} (h : ConstructorTyped a.classes id p r d) :
    Decides (∀ c ∈ d, (MemberDecl.constructor c).Lowerable a.classes)
      (constructor a.classes parent d) := by
  obtain ⟨m, base, _, _, h⟩ := h
  cases d with
  | none =>
    have hchunk : Decides True (memberChunk a.classes [] (baseCall a.classes parent []) none) :=
      .after ((start_decides []).congr (iff_of_true (by decide) trivial)) fun _ =>
        .after (.before .pure fun _ => .before .member fun _ => .pure) fun _ =>
          .after .pure fun _ => .pure
    exact (hchunk.before fun _ => .before .member fun _ => .pure).congr (by simp)
  | some c =>
    obtain ⟨hlen, env, env', hbound, hargs, hbody⟩ := h
    refine ((memberChunk_decides W hbound hlen hbody fun _ hσ =>
      baseCall_decides W hσ hargs).before fun _ => .before .member fun _ => .pure).congr ?_
    simp only [Option.mem_some_iff, forall_eq', MemberDecl.lowerable_iff, MemberDecl.nodes,
      List.forall_mem_append]
    rfl

theorem fieldInitializer_decides (W : WellTyped a) {id : TypeId} {r : ClassRecord}
    {d : FieldDecl Typing} (hr : a.classes.record? id = some r) (h : FieldTyped a.classes id r d) :
    Decides ((MemberDecl.field d).Lowerable a.classes ∧ (d.initializer.isSome = true → ∀ owner f,
        a.classes.lookupField? id d.name.name = some (owner, f) → f.offset ≤ 65535))
      (fieldInitializer a.classes id d) := by
  obtain ⟨f, hf, htyped⟩ := h
  have hfound : a.classes.lookupField? id d.name.name = some (id, f) :=
    ClassTable.lookupField_own hr hf
  unfold fieldInitializer
  cases hd : d.initializer with
  | none =>
    refine Decides.pure.congr (iff_of_true trivial ⟨⟨by simp [MemberDecl.slots], ?_⟩, by simp⟩)
    simp [MemberDecl.nodes, hd, Expr.nodesList]
  | some e =>
    obtain ⟨υ, he, _⟩ := htyped e hd
    refine ((fieldOffset_decides hfound).bind fun _ _ _ _ _ =>
      (expr_decides W rfl ⟨rfl, rfl⟩ he).before fun _ => .pure).congr ?_
    simp [MemberDecl.lowerable_iff, MemberDecl.slots, MemberDecl.nodes, hd, Expr.nodesList, hfound,
      and_comm]

theorem initializer_decides (W : WellTyped a) {id : TypeId} {parent : Nat} {r : ClassRecord}
    {d : ClassDecl Typing} (hr : a.classes.record? id = some r)
    (h : ∀ fd ∈ d.fields, FieldTyped a.classes id r fd) :
    Decides (∀ fd ∈ d.fields, (MemberDecl.field fd).Lowerable a.classes ∧
        (fd.initializer.isSome = true → ∀ owner f,
          a.classes.lookupField? id fd.name.name = some (owner, f) → f.offset ≤ 65535))
      (initializer a.classes id parent d) :=
  .after ((start_decides []).congr (iff_of_true (by decide) trivial)) fun _ =>
    .after .member fun _ =>
      (Decides.mapM fun fd hfd => fieldInitializer_decides W hr (h fd hfd)).before fun _ => .pure

/-- A property of all members is one of the fields, the methods and the constructors. -/
theorem forall_members {ν : Type} {d : ClassDecl ν} {P : MemberDecl ν → Prop} :
    (∀ m ∈ d.members, P m) ↔ (∀ fd ∈ d.fields, P (.field fd)) ∧ (∀ md ∈ d.methods, P (.method md)) ∧
      ∀ c ∈ d.constructors, P (.constructor c) := by
  simp only [ClassDecl.fields, ClassDecl.methods, ClassDecl.constructors, List.mem_filterMap]
  constructor
  · intro h
    refine ⟨?_, ?_, ?_⟩
    · rintro fd ⟨m, hmem, heq⟩
      cases m <;> cases heq
      exact h _ hmem
    · rintro md ⟨m, hmem, heq⟩
      cases m <;> cases heq
      exact h _ hmem
    · rintro c ⟨m, hmem, heq⟩
      cases m <;> cases heq
      exact h _ hmem
  · rintro ⟨hf, hm, hc⟩ m hmem
    cases m with
    | field fd => exact hf fd ⟨_, hmem, rfl⟩
    | method md => exact hm md ⟨_, hmem, rfl⟩
    | constructor c => exact hc c ⟨_, hmem, rfl⟩

/-- A class declares one constructor at most, since no two declarations have a key in common. -/
theorem constructors_head {d : ClassDecl Typing} {r : ClassRecord} (h : Registered d r)
    {c : ConstructorDecl Typing} (hc : c ∈ d.constructors) : d.constructors.head? = some c := by
  have hsub : (d.constructors.map fun _ => MemberKey.constructor).Sublist
      ((d.members.filterMap (·.signature?)).map (·.1)) := by
    rw [ClassDecl.constructors, List.map_filterMap, List.map_filterMap]
    induction d.members with
    | nil => exact .slnil
    | cons mem members ih =>
      cases mem with
      | field _ | constructor _ => simpa [MemberDecl.signature?] using ih
      | method m => simpa [MemberDecl.signature?] using ih.trans (List.sublist_cons_self _ _)
  have hnodup := hsub.nodup h.keys_nodup
  generalize d.constructors = cs at hc hnodup ⊢
  cases cs with
  | nil => cases hc
  | cons c' cs =>
    cases cs with
    | nil =>
      rw [List.mem_singleton] at hc
      rw [hc, List.head?_cons]
    | cons c'' cs => simp at hnodup

theorem classDecl_decides (W : WellTyped a) {id p : Nat} {r : ClassRecord} {d : ClassDecl Typing}
    (hc : ClassTyped a.classes id p r d) :
    Decides (d.Lowerable a.classes id) (classDecl a.classes id d) := by
  have hparent : a.classes.parent? id = some p := hc.parent_eq
  have hconstructors : (∀ c ∈ d.constructors, (MemberDecl.constructor c).Lowerable a.classes) ↔
      ∀ c ∈ d.constructors.head?, (MemberDecl.constructor c).Lowerable a.classes :=
    ⟨fun h c hhead => h c (List.mem_of_mem_head? hhead),
      fun h c hmem => h c (constructors_head hc.registered hmem)⟩
  unfold classDecl
  rw [hparent]
  refine Decides.after ((constructOf_decides p).congr (iff_of_true hc.inheritable.ne_unit trivial))
    fun parent => ((initializer_decides W hc.record hc.fields).bind fun _ _ _ _ _ =>
      (Decides.mapM fun md hmd => method_decides W (hc.methods md hmd)).bind fun _ _ _ _ _ =>
      (constructor_decides W hc.constructor).before fun _ => .pure).congr ?_
  rw [ClassDecl.lowerable_iff, forall_members, hconstructors]
  constructor
  · rintro ⟨hf, hm, hk⟩
    exact ⟨⟨fun fd h => (hf fd h).1, hm, hk⟩, fun fd h => (hf fd h).2⟩
  · rintro ⟨⟨hf, hm, hk⟩, hi⟩
    exact ⟨fun fd h => ⟨hf fd h, hi fd h⟩, hm, hk⟩

theorem classes_decides (W : WellTyped a) {id : Nat} {ds : List (ClassDecl Typing)}
    (h : ∀ (i : Nat) d, ds[i]? = some d → ∃ p r, ClassTyped a.classes (id + i) p r d) :
    Decides (∀ (i : Nat) d, ds[i]? = some d → d.Lowerable a.classes (id + i))
      (classes a.classes id ds) := by
  induction ds generalizing id with
  | nil => exact Decides.pure.congr (by simp)
  | cons d ds ih =>
    obtain ⟨p, r, hc⟩ := h 0 d rfl
    have hrest : Decides (∀ (i : Nat) d, ds[i]? = some d → d.Lowerable a.classes (id + 1 + i))
        (classes a.classes (id + 1) ds) := ih fun i d' hd' => by
      rw [Nat.add_assoc, Nat.add_comm 1]
      exact h (i + 1) d' hd'
    refine ((classDecl_decides W hc).bind fun _ _ _ _ _ => hrest.before fun _ => .pure).congr ?_
    constructor
    · rintro ⟨hd, hds⟩ i d' hd'
      cases i with
      | zero =>
        cases hd'
        exact hd
      | succ i =>
        have := hds i d' hd'
        rwa [Nat.add_assoc, Nat.add_comm 1] at this
    · intro hall
      refine ⟨hall 0 d rfl, ?_⟩
      intro i d' hd'
      rw [Nat.add_assoc, Nat.add_comm 1]
      exact hall (i + 1) d' hd'

/-- The built-in classes always have constructs. -/
theorem builtins_decides : Decides True (Builtin.classes.mapM builtin) :=
  (Decides.mapM fun _ _ => (Decides.mapM fun _ _ => Decides.before .member fun _ => .pure).before
    fun _ => .pure).congr (by simp)

theorem entryConstruct_decides {t : ClassTable} {id : TypeId} (hfind : t.find? entryClass = some id)
    (hbuiltin : t.isBuiltin id = false) (hne : id ≠ TypeId.unit)
    (hparams : ∀ m, t.constructor? id = some m → m.params = []) :
    Decides True (entryConstruct t) := by
  have hk : Decides True (constructOf t id) := (constructOf_decides id).congr (iff_of_true hne trivial)
  unfold entryConstruct
  rw [hfind, Option.filter_some, hbuiltin]
  simp only [Bool.not_false, ↓reduceIte]
  cases hm : t.constructor? id with
  | none => exact hk
  | some m =>
    simp only [hparams m hm, List.isEmpty_nil, ↓reduceIte]
    exact hk

end LowerableLemmas

/-- Lowering the classes of a program with an entry class succeeds exactly if the program can be
lowered. -/
theorem parts_decides {a : Analysis} (W : WellTyped a) {id : TypeId}
    (hfind : a.classes.find? entryClass = some id) (hbuiltin : a.classes.isBuiltin id = false)
    (hne : id ≠ TypeId.unit) (hparams : ∀ m, a.classes.constructor? id = some m → m.params = []) :
    Decides a.Lowerable (parts a) := by
  unfold parts
  exact .after (entryConstruct_decides hfind hbuiltin hne hparams) fun _ =>
    .after builtins_decides fun _ =>
      (classes_decides W W.each).before fun _ => .before (.before .member fun _ => .pure) fun _ => .pure

/-- Where the entry class is found, there is an image exactly if the program can be lowered, and a defect
otherwise. -/
theorem image_of_entry {a : Analysis} (W : WellTyped a) {id : TypeId}
    (hfind : a.classes.find? entryClass = some id) (hbuiltin : a.classes.isBuiltin id = false)
    (hne : id ≠ TypeId.unit) (hparams : ∀ m, a.classes.constructor? id = some m → m.params = []) :
    ((∃ image, Lower.image a = .ok image) ↔ a.Lowerable) ∧
      (¬ a.Lowerable → ∃ defect, Lower.image a = .error (.defect defect)) := by
  obtain ⟨hok, herror⟩ := parts_decides W hfind hbuiltin hne hparams .empty
  have hfails (hn : ¬ a.Lowerable) : ∃ defect, Lower.image a = .error (.defect defect) := by
    obtain ⟨defect, he⟩ := herror hn
    exact ⟨defect, by rw [Lower.image, he]; rfl⟩
  refine ⟨⟨?_, ?_⟩, hfails⟩
  · rintro ⟨_, himage⟩
    by_contra hn
    obtain ⟨defect, he⟩ := hfails hn
    rw [himage] at he
    cases he
  · intro hl
    obtain ⟨⟨main, constructs, entry⟩, pools, hgives⟩ := hok hl
    exact ⟨_, by rw [Lower.image, show (parts a).run .empty = _ from hgives]; rfl⟩

end Lower

/-- The program declares the entry class, and its constructor takes no arguments. -/
def Program.HasEntry {ν : Type} (p : Program ν) : Prop :=
  ∃ d ∈ p.classes, d.name.name = entryClass ∧ ∀ c ∈ d.constructors, c.params = []

instance {ν : Type} (p : Program ν) : Decidable p.HasEntry :=
  inferInstanceAs (Decidable (∃ d ∈ p.classes, d.name.name = entryClass ∧
    ∀ c ∈ d.constructors, c.params = []))

/-- The entry class is in the table of the checked program. -/
theorem Program.HasEntry.found {p : Program Span} {a : Analysis} (hmain : p.HasEntry)
    (h : Check.program p = .ok a) :
    ∃ id, a.classes.find? entryClass = some id ∧ a.classes.isBuiltin id = false ∧
      id ≠ TypeId.unit ∧ ∀ m, a.classes.constructor? id = some m → m.params = [] := by
  obtain ⟨d, hd, hname, hparams⟩ := hmain
  obtain ⟨i, hi⟩ := List.mem_iff_getElem?.mp hd
  obtain ⟨q, r, hc⟩ := (Check.program_wellTyped h).each i _ (Check.program_class h hi)
  refine ⟨TypeId.first + i, hname ▸ Check.program_found h hi, ?_, ?_, fun m hm => ?_⟩
  · simp [ClassTable.isBuiltin, hc.record, hc.notBuiltin]
  · exact Nat.ne_of_gt (Nat.lt_add_right i (Nat.lt_succ_self _))
  · obtain ⟨m', _, hm', _, hctor⟩ := hc.constructor
    rw [ClassTable.constructor?, hc.record, Option.bind_some, hm'] at hm
    cases hm
    split at hctor
    · exact hctor.1
    · next c hhead =>
      obtain ⟨c', hc', hsame⟩ := Check.checked_params (List.mem_of_mem_head? hhead)
      rw [hsame, hparams c' hc'] at hctor
      exact List.eq_nil_of_length_eq_zero hctor.1

/-- A checked program with an entry class has an image exactly if it can be lowered, and it has a defect
otherwise. -/
theorem Lower.image_ok_iff {p : Program Span} {a : Analysis} (h : Check.program p = .ok a)
    (hmain : p.HasEntry) :
    ((∃ image, Lower.image a = .ok image) ↔ a.Lowerable) ∧
      (¬ a.Lowerable → ∃ defect, Lower.image a = .error (.defect defect)) := by
  obtain ⟨id, hfind, hbuiltin, hne, hparams⟩ := hmain.found h
  exact Lower.image_of_entry (Check.program_wellTyped h) hfind hbuiltin hne hparams

/-- A program whose one field starts with the length of its name. -/
def initialized : String :=
  "class Main\n\x7b\n public name: string = \"Main\"\n public size: number = this.name.length\n\x7d\n"

/-- It has an image, so it is within the limits. -/
theorem initialized_image_ok : ∃ p a, Program.ofSource initialized = .ok p ∧
    Check.program p = .ok a ∧ p.HasEntry ∧ (∃ image, Lower.image a = .ok image) ∧ a.Lowerable := by
  have hrun : ((Program.ofSource initialized).toOption.bind fun p =>
      (Check.program p).toOption.map fun a =>
        decide p.HasEntry && (Lower.image a).toOption.isSome) = some true := by decide +kernel
  simp only [Option.bind_eq_some_iff, Option.map_eq_some_iff, toOption_eq_some, Bool.and_eq_true,
    decide_eq_true_eq, Option.isSome_iff_exists] at hrun
  obtain ⟨p, hp, a, hcheck, hmain, himage⟩ := hrun
  exact ⟨p, a, hp, hcheck, hmain, himage, (Lower.image_ok_iff hcheck hmain).1.mp himage⟩

/-- A program that tests null for the unit type, or more exactly for an option of it. -/
def unitTest : String :=
  "class Main\n\x7b\n public isUnit: boolean = null is unit?\n\x7d\n"

/-- It passes the check, has an entry class and is within the limits, and yet it has no image. -/
theorem unitTest_defect : ∃ p a, Program.ofSource unitTest = .ok p ∧ Check.program p = .ok a ∧
    p.HasEntry ∧ (∀ d ∈ a.program.classes, ∀ m ∈ d.members, m.slots ≤ 65535) ∧
    (∀ r ∈ a.classes.records, ∀ f ∈ r.fields, f.offset ≤ 65535) ∧
    Lower.image a = .error (.defect (.noConstruct "unit")) := by
  have hrun : ((Program.ofSource unitTest).toOption.bind fun p =>
      (Check.program p).toOption.map fun a =>
        (decide p.HasEntry && decide (∀ d ∈ a.program.classes, ∀ m ∈ d.members, m.slots ≤ 65535) &&
          decide (∀ r ∈ a.classes.records, ∀ f ∈ r.fields, f.offset ≤ 65535),
        match Lower.image a with
        | .ok _ => none
        | .error e => some e)) = some (true, some (.defect (.noConstruct "unit"))) := by decide +kernel
  simp only [Option.bind_eq_some_iff, Option.map_eq_some_iff, toOption_eq_some, Prod.mk.injEq,
    Bool.and_eq_true, decide_eq_true_eq] at hrun
  obtain ⟨p, hp, a, hcheck, ⟨⟨hmain, hslots⟩, hoffsets⟩, hdefect⟩ := hrun
  refine ⟨p, a, hp, hcheck, hmain, hslots, hoffsets, ?_⟩
  split at hdefect
  · cases hdefect
  · next e he => rw [he, Option.some.inj hdefect]

end ClassLang
