import ClassLang.Proofs.Hierarchy
import ClassLang.Proofs.Outlines
import ClassLang.Proofs.Success
import ClassLang.Proofs.Threading

/-!
# Where semantic errors point

Every semantic error points at a place of the tree that is checked (`Check.program_blames`). There is a
lemma for each function of the check. Most errors point at the part in hand. Three kinds take their place
from the class table: a cycle points at the declaration of a class, and an override or the entry constructor
at that of a method. In the table only the classes of the program have places (`ClassTable.Sited`), so it
matters that no cycle closes at a built-in class.
-/

namespace ClassLang

namespace Check

/-- All the errors point at one of the places. -/
def Blames (S : List Span) (es : List SemanticError) : Prop := ∀ e ∈ es, e.span ∈ S

section

variable {S : List Span} {es es' : List SemanticError} {e : SemanticError} {α β : Type}

@[simp]
theorem blames_nil : Blames S [] := List.forall_mem_nil _

@[simp]
theorem blames_cons : Blames S (e :: es) ↔ e.span ∈ S ∧ Blames S es := List.forall_mem_cons

@[simp]
theorem blames_append : Blames S (es ++ es') ↔ Blames S es ∧ Blames S es' := List.forall_mem_append

theorem blames_ok (a : α) : Blames S (errorsOf (.ok a)) := blames_nil

theorem blames_error (h : e.span ∈ S) : Blames S (errorsOf (.error e : Except SemanticError α)) :=
  List.forall_mem_singleton.mpr h

theorem Blames.of_error {x : Except SemanticError α} (hx : Blames S (errorsOf x)) (h : x = .error e) :
    Blames S [e] := by
  rwa [h] at hx

theorem Blames.bind {x : Except SemanticError α} {k : α → Except SemanticError β}
    (hx : Blames S (errorsOf x)) (hk : ∀ a, Blames S (errorsOf (k a))) : Blames S (errorsOf (x >>= k)) := by
  cases x with
  | error e => exact hx
  | ok a => exact hk a

end

/-! ## Expressions -/

section

variable {S : List Span} {span : Span} (env : Environment)

theorem lookup_blames (x : Ident) (h : x.span ∈ S) : Blames S (errorsOf (env.lookup x)) := by
  unfold Environment.lookup
  split
  · exact blames_ok _
  · exact blames_error h

theorem resolve_blames (t : ClassTable) (x : Ident) (h : x.span ∈ S) :
    Blames S (errorsOf (t.resolve x)) := by
  unfold ClassTable.resolve
  split
  · exact blames_ok _
  · exact blames_error h

theorem resolveType_blames (t : ClassTable) (w : TypeName) (h : w.outline.Within S) :
    Blames S (errorsOf (t.resolveType w)) := by
  cases w with
  | named x => exact (resolve_blames t x h.span).bind fun _ => blames_ok _
  | optional x s =>
    obtain ⟨_, hx, _⟩ := h
    exact (resolve_blames t x hx.span).bind fun _ => blames_ok _
  | null s => exact blames_ok _

theorem assignable_blames (v τ : Ty) (h : span ∈ S) : Blames S (errorsOf (assignable env v τ span)) := by
  unfold assignable
  split_ifs
  · exact blames_ok _
  · exact blames_error h
  · exact blames_error h

theorem accessible_blames (owner : TypeId) (x : String) (access : Access) (h : span ∈ S) :
    Blames S (errorsOf (accessible env owner x access span)) := by
  unfold accessible
  split_ifs
  · exact blames_ok _
  · exact blames_error h

theorem thisClass_blames (h : span ∈ S) : Blames S (errorsOf (thisClass env span)) := by
  unfold thisClass
  split
  · exact blames_ok _
  · exact blames_error h

theorem baseClass_blames (h : span ∈ S) : Blames S (errorsOf (baseClass env span)) := by
  refine (thisClass_blames env h).bind fun this => ?_
  split
  · exact blames_ok _
  · exact blames_error h

theorem receiver_blames (τ : Ty) (x : String) (h : span ∈ S) :
    Blames S (errorsOf (receiver env τ x span)) := by
  unfold receiver
  split
  · split_ifs
    · exact blames_error h
    · exact blames_ok _
  · exact blames_error h

theorem method_blames (id : TypeId) (key : MemberKey) (τ : Ty) (h : span ∈ S) :
    Blames S (errorsOf (method env id key τ span)) := by
  unfold method
  split
  · exact blames_ok _
  · exact blames_error h

theorem field_blames (τ : Ty) (x : Ident) (h : x.span ∈ S) : Blames S (errorsOf (field env τ x)) := by
  refine (receiver_blames env τ x.name h).bind fun id => ?_
  split
  · exact blames_ok _
  · exact blames_error h

theorem operatorClass_blames (op : BinaryOp) (left : Ty) (h : span ∈ S) :
    Blames S (errorsOf (operatorClass env op left span)) := by
  unfold operatorClass
  split_ifs
  · exact blames_ok _
  · exact receiver_blames env left _ h

theorem testTarget_blames (operand : Ty) (w : TypeName) (hw : w.outline.Within S) (h : span ∈ S) :
    Blames S (errorsOf (testTarget env operand w span)) := by
  have hspan := hw.type_span
  refine (resolveType_blames env.classes w hw).bind fun type => ?_
  dsimp only
  split_ifs <;> first | exact blames_ok _ | exact blames_error h | exact blames_error hspan

theorem argumentCount_blames (params : List Ty) (arguments : List (Expr Span)) (h : span ∈ S) :
    Blames S (errorsOf (argumentCount params arguments span)) := by
  unfold argumentCount
  split_ifs
  · exact blames_ok _
  · exact blames_error h

end

mutual

theorem infer_blames {S : List Span} (env : Environment) :
    (e : Expr Span) → e.outline.Within S → Blames S (errorsOf (infer env e))
  | .number _ _, _ | .string _ _, _ | .boolean _ _, _ | .null _, _ => blames_ok _
  | .name x s, h => by
    rw [infer]
    exact (lookup_blames env _ h.span).bind fun _ => blames_ok _
  | .this s, h => by
    rw [infer]
    exact (thisClass_blames env h.span).bind fun _ => blames_ok _
  | .base s, h => by
    rw [infer]
    exact (baseClass_blames env h.span).bind fun _ => blames_ok _
  | .member o x s, h => by
    obtain ⟨_, ho, hx, _⟩ := h
    rw [infer]
    refine (infer_blames env o ho).bind fun ⟨τ, o'⟩ => ?_
    refine (field_blames env τ x hx.span).bind fun ⟨owner, f⟩ => ?_
    exact (accessible_blames env owner x.name f.access hx.span).bind fun _ => blames_ok _
  | .call (.member o x n) es s, h => by
    obtain ⟨hs, ⟨_, ho, hx, _⟩, hes⟩ := h
    rw [infer]
    refine (infer_blames env o ho).bind fun ⟨τ, o'⟩ => ?_
    refine (receiver_blames env τ x.name hx.span).bind fun id => ?_
    refine (method_blames env id _ τ hx.span).bind fun ⟨owner, m⟩ => ?_
    refine (accessible_blames env owner x.name m.access hx.span).bind fun _ => ?_
    refine (argumentCount_blames m.params es hs).bind fun _ => ?_
    exact (inferArguments_blames env m.params es hes).bind fun _ => blames_ok _
  | .new c es s, h => by
    obtain ⟨hs, hc, hes⟩ := h
    rw [infer]
    refine (resolve_blames env.classes c hc.span).bind fun id => ?_
    split
    · exact blames_error hs
    · next m _ =>
      refine (accessible_blames env id _ m.access hs).bind fun _ => ?_
      refine (argumentCount_blames m.params es hs).bind fun _ => ?_
      exact (inferArguments_blames env m.params es hes).bind fun _ => blames_ok _
  | .assign (.name x n) v s, h => by
    obtain ⟨_, hl, hv, _⟩ := h
    rw [infer]
    refine (infer_blames env (.name x n) hl).bind fun ⟨τ, l'⟩ => ?_
    dsimp only
    split_ifs
    · exact blames_error hl.span
    · refine (infer_blames env v hv).bind fun ⟨υ, v'⟩ => ?_
      exact (assignable_blames env υ τ hv.note).bind fun _ => blames_ok _
  | .assign (.member o x n) v s, h => by
    obtain ⟨_, hl, hv, _⟩ := h
    rw [infer]
    refine (infer_blames env (.member o x n) hl).bind fun ⟨τ, l'⟩ => ?_
    dsimp only
    split_ifs
    · exact blames_error hl.span
    · refine (infer_blames env v hv).bind fun ⟨υ, v'⟩ => ?_
      exact (assignable_blames env υ τ hv.note).bind fun _ => blames_ok _
  | .assign (.number ..) _ _, h | .assign (.string ..) _ _, h | .assign (.boolean ..) _ _, h
  | .assign (.null ..) _ _, h | .assign (.this ..) _ _, h | .assign (.base ..) _ _, h
  | .assign (.call ..) _ _, h | .assign (.new ..) _ _, h | .assign (.assign ..) _ _, h
  | .assign (.binary ..) _ _, h | .assign (.unary ..) _ _, h | .assign (.assert ..) _ _, h
  | .assign (.instanceTest ..) _ _, h | .assign (.cast ..) _ _, h => blames_error h.2.1.note
  | .binary op l r s, h => by
    obtain ⟨hs, hl, hr, _⟩ := h
    rw [infer]
    refine (infer_blames env l hl).bind fun ⟨τ, l'⟩ => ?_
    refine (infer_blames env r hr).bind fun ⟨υ, r'⟩ => ?_
    refine (operatorClass_blames env op τ hs).bind fun id => ?_
    refine (method_blames env id _ τ hs).bind fun ⟨owner, m⟩ => ?_
    refine (accessible_blames env owner _ m.access hs).bind fun _ => ?_
    dsimp only
    split
    · exact blames_ok _
    · exact (assignable_blames env υ _ hr.note).bind fun _ => blames_ok _
  | .unary op o s, h => by
    obtain ⟨hs, ho, _⟩ := h
    rw [infer]
    refine (infer_blames env o ho).bind fun ⟨τ, o'⟩ => ?_
    refine (receiver_blames env τ _ hs).bind fun id => ?_
    refine (method_blames env id _ τ hs).bind fun ⟨owner, m⟩ => ?_
    exact (accessible_blames env owner _ m.access hs).bind fun _ => blames_ok _
  | .assert o s, h => by
    obtain ⟨hs, ho, _⟩ := h
    rw [infer]
    refine (infer_blames env o ho).bind fun ⟨τ, o'⟩ => ?_
    dsimp only
    split
    · exact blames_ok _
    · exact blames_error hs
  | .instanceTest o w s, h => by
    obtain ⟨_, ho, hw, _⟩ := h
    rw [infer]
    refine (infer_blames env o ho).bind fun ⟨τ, o'⟩ => ?_
    exact (testTarget_blames env τ w hw ho.note).bind fun _ => blames_ok _
  | .cast o w s, h => by
    obtain ⟨_, ho, hw, _⟩ := h
    rw [infer]
    refine (infer_blames env o ho).bind fun ⟨τ, o'⟩ => ?_
    exact (testTarget_blames env τ w hw ho.note).bind fun _ => blames_ok _
  | .call (.number ..) _ _, h | .call (.string ..) _ _, h | .call (.boolean ..) _ _, h
  | .call (.null ..) _ _, h | .call (.name ..) _ _, h | .call (.this ..) _ _, h
  | .call (.base ..) _ _, h | .call (.call ..) _ _, h | .call (.new ..) _ _, h
  | .call (.assign ..) _ _, h | .call (.binary ..) _ _, h | .call (.unary ..) _ _, h
  | .call (.assert ..) _ _, h | .call (.instanceTest ..) _ _, h | .call (.cast ..) _ _, h =>
    blames_error h.2.1.note

theorem inferArguments_blames {S : List Span} (env : Environment) : (params : List Ty) →
    (es : List (Expr Span)) → Outline.AllWithin S (Expr.outlines es) →
      Blames S (errorsOf (inferArguments env params es))
  | [], _, _ => by
    rw [inferArguments]
    · exact blames_ok _
    · exact nofun
  | _ :: _, [], _ => by
    rw [inferArguments]
    · exact blames_ok _
    · exact nofun
  | param :: params, e :: es, h => by
    obtain ⟨he, hes⟩ := h
    rw [inferArguments]
    refine (infer_blames env e he).bind fun ⟨τ, e'⟩ => ?_
    refine (assignable_blames env τ param he.note).bind fun _ => ?_
    exact (inferArguments_blames env params es hes).bind fun _ => blames_ok _

end

/-! ## Statements -/

section

variable {S : List Span} (env : Environment)

theorem bind_blames (x : Ident) (τ : Ty) (h : x.span ∈ S) : Blames S (errorsOf (env.bind x τ)) := by
  have hscopes : Blames S (errorsOf (env.scopes.bind x τ)) := by
    unfold Scopes.bind
    split
    · exact blames_error h
    · exact blames_ok _
  exact hscopes.bind fun _ => blames_ok _

theorem tolerate_blames (e : Expr Span) (h : e.outline.Within S) : Blames S (tolerate env e).2 := by
  have he := infer_blames env e h
  unfold tolerate
  split
  · exact blames_nil
  · next heq => exact he.of_error heq

theorem condition_blames (e : Expr Span) (h : e.outline.Within S) : Blames S (condition env e).2 := by
  have he := infer_blames env e h
  unfold condition
  split
  · dsimp only
    split_ifs
    · exact blames_nil
    · exact blames_cons.mpr ⟨h.note, blames_nil⟩
  · next heq => exact he.of_error heq

theorem defineAs_blames (x : Ident) (τ : Ty) (e : Expr Span) (hx : x.span ∈ S)
    (h : e.outline.Within S) : Blames S (defineAs env x τ e).errors := by
  have hname := bind_blames env x τ hx
  have he := infer_blames env e h
  have hnote := h.note
  unfold defineAs
  dsimp only
  split
  · next heq => exact hname.of_error heq
  · split
    · next heq => exact he.of_error heq
    · next υ _ _ =>
      have hfits := assignable_blames env υ τ hnote
      split
      · next heq => exact hfits.of_error heq
      · dsimp only
        split_ifs
        · exact blames_cons.mpr ⟨hnote, blames_nil⟩
        · exact blames_nil

theorem defineInferred_blames (x : Ident) (e : Expr Span) (hx : x.span ∈ S) (h : e.outline.Within S) :
    Blames S (defineInferred env x e).errors := by
  have he := infer_blames env e h
  have hnote := h.note
  unfold defineInferred
  split
  · next heq => exact he.of_error heq
  · next τ _ _ =>
    have hname := bind_blames env x τ hx
    split_ifs
    · exact blames_cons.mpr ⟨hnote, blames_nil⟩
    · exact blames_cons.mpr ⟨hnote, blames_nil⟩
    · split
      · next heq => exact hname.of_error heq
      · exact blames_nil

theorem define_blames (x : Ident) (w : Option TypeName) (e : Expr Span) (hx : x.span ∈ S)
    (hw : Outline.AllWithin S (w.toList.map TypeName.outline)) (h : e.outline.Within S) :
    Blames S (define env x w e).errors := by
  cases w with
  | none => exact defineInferred_blames env x e hx h
  | some w =>
    have htype := resolveType_blames env.classes w hw.1
    unfold define
    dsimp only
    split
    · next heq => exact htype.of_error heq
    · exact defineAs_blames env x _ e hx h

theorem returnValue_blames (e : Option (Expr Span)) (s : Span) (hs : s ∈ S)
    (h : Outline.AllWithin S (Expr.outlines e.toList)) : Blames S (returnValue env e s).2 := by
  cases e with
  | none =>
    unfold returnValue
    dsimp only
    split_ifs
    · exact blames_nil
    · exact blames_cons.mpr ⟨hs, blames_nil⟩
  | some e =>
    have he := infer_blames env e h.1
    have hnote : e.note ∈ S := h.1.note
    unfold returnValue
    dsimp only
    split
    · next heq => exact he.of_error heq
    · dsimp only
      split_ifs
      · exact blames_cons.mpr ⟨hnote, blames_nil⟩
      · exact assignable_blames env _ _ hnote

end

mutual

theorem stmt_blames {S : List Span} (env : Environment) :
    (s : Stmt Span) → s.outline.Within S → Blames S (stmt env s).errors
  | .define x w e s, h => by
    obtain ⟨_, hx, h⟩ := h
    obtain ⟨hw, he, _⟩ := Outline.allWithin_append.mp h
    exact define_blames env x w e hx.span hw he
  | .return e s, ⟨hs, h⟩ => returnValue_blames env e s hs h
  | .ifThen e b s, ⟨_, he, hb, _⟩ =>
    blames_append.mpr ⟨condition_blames env e he, stmt_blames env.enter b hb⟩
  | .ifElse e b o s, ⟨_, he, hb, ho, _⟩ =>
    blames_append.mpr ⟨blames_append.mpr ⟨condition_blames env e he, stmt_blames env.enter b hb⟩,
      stmt_blames env.enter o ho⟩
  | .while e b s, ⟨_, he, hb, _⟩ =>
    blames_append.mpr ⟨condition_blames env e he, stmt_blames env.enter b hb⟩
  | .block bs s, ⟨_, h⟩ => stmts_blames env.enter bs h
  | .expression e s, ⟨_, he, _⟩ => tolerate_blames env e he

theorem stmts_blames {S : List Span} (env : Environment) : (bs : List (Stmt Span)) →
    Outline.AllWithin S (Stmt.outlines bs) → Blames S (stmts env bs).errors
  | [], _ => blames_nil
  | b :: bs, ⟨hb, hbs⟩ => blames_append.mpr ⟨stmt_blames env b hb, stmts_blames _ bs hbs⟩

end

end Check

/-! ## The class table -/

namespace ClassTable

/-- Each class of the program and its methods were written at one of the places of the class. The built-in
classes inherit from the root and from nothing else. -/
structure Sited (S : TypeId → List Span) (t : ClassTable) : Prop where
  builtin : ∀ id : Nat, id < TypeId.first → ∃ r, t.record? id = some r ∧ r.isBuiltin = true ∧
    (∀ p, r.parent = some p → p = TypeId.any) ∧ (id = TypeId.any → r.parent = none)
  user : ∀ (id : Nat) r, TypeId.first ≤ id → t.record? id = some r →
    r.span ∈ S id ∧ ∀ m ∈ r.methods, m.span ∈ S id

open Hierarchy.HierarchyLemmas

variable {S : TypeId → List Span} {t t' : ClassTable} {id : Nat}

theorem standard_sited : Sited S standard := by
  have hbuiltin : ∀ r ∈ standard.records, r.isBuiltin = true := by decide +kernel
  refine ⟨fun id hid => ?_, fun id r hid hr => ?_⟩
  · obtain ⟨r, hr, hparent, _, hroot⟩ := standard_record id hid
    exact ⟨r, hr, hbuiltin r (List.mem_of_getElem? hr), hparent, hroot⟩
  · have hsize : standard.size = TypeId.first := by decide +kernel
    exact absurd (lt_of_record hr) (Nat.not_lt_of_le (hsize ▸ hid))

namespace Sited

/-- A change to a class keeps the places if it adds only methods of these places. -/
theorem modify (h : Sited S t) {f : ClassRecord → ClassRecord}
    (hbuiltin : ∀ r, (f r).isBuiltin = r.isBuiltin) (hspan : ∀ r, (f r).span = r.span)
    (hmethods : ∀ r, ∀ m ∈ (f r).methods, m ∈ r.methods ∨ m.span ∈ S id)
    (hparent : ∀ r, (f r).parent = r.parent ∨ TypeId.first ≤ id ∨
      id ≠ TypeId.any ∧ (f r).parent = some TypeId.any) : Sited S (t.modify id f) := by
  refine ⟨fun j hj => ?_, fun j r hj hr => ?_⟩
  · obtain ⟨r, hr, hb, hany, hroot⟩ := h.builtin j hj
    rw [record_modify, hr]
    split
    · next heq =>
      subst heq
      refine ⟨f r, rfl, (hbuiltin r).trans hb, ?_⟩
      rcases hparent r with hsame | hfirst | ⟨hne, hcut⟩
      · rw [hsame]
        exact ⟨hany, hroot⟩
      · exact absurd hj (Nat.not_lt_of_le hfirst)
      · rw [hcut]
        exact ⟨fun p hp => (Option.some.inj hp).symm, fun heq => absurd heq hne⟩
    · exact ⟨r, rfl, hb, hany, hroot⟩
  · rw [record_modify] at hr
    split at hr
    · next heq =>
      subst heq
      obtain ⟨q, hq, rfl⟩ := Option.map_eq_some_iff.mp hr
      obtain ⟨hs, hm⟩ := h.user id q hj hq
      refine ⟨hspan q ▸ hs, fun m hm' => ?_⟩
      exact (hmethods q m hm').elim (hm m) fun hm => hm
    · exact h.user j r hj hr

theorem first_le_size (h : Sited S t) : TypeId.first ≤ t.size := by
  obtain ⟨r, hr, _⟩ := h.builtin TypeId.unit (Nat.lt_succ_self _)
  exact lt_of_record hr

theorem isBuiltin (h : Sited S t) (hid : t.isBuiltin id = false) : TypeId.first ≤ id := by
  refine Nat.le_of_not_lt fun hlt => ?_
  obtain ⟨r, hr, hb, _⟩ := h.builtin id hlt
  rw [ClassTable.isBuiltin, hr] at hid
  exact absurd hb (by simpa using hid)

theorem method (h : Sited S t) (hid : TypeId.first ≤ id) {key : MemberKey} {m : Method}
    (hm : (t.record? id).bind (·.method? key) = some m) : m.span ∈ S id := by
  obtain ⟨r, hr, hfound⟩ := Option.bind_eq_some_iff.mp hm
  exact (h.user id r hid hr).2 m (List.mem_of_find?_eq_some hfound)

theorem setParent_user (h : Sited S t) (hid : TypeId.first ≤ id) (p : Option TypeId) :
    Sited S (t.setParent id p) :=
  h.modify (fun _ => rfl) (fun _ => rfl) (fun _ _ hm => .inl hm) fun _ => .inr (.inl hid)

theorem setParent_any (h : Sited S t) (hid : id ≠ TypeId.any) :
    Sited S (t.setParent id (some TypeId.any)) :=
  h.modify (fun _ => rfl) (fun _ => rfl) (fun _ _ hm => .inl hm) fun _ => .inr (.inr ⟨hid, rfl⟩)

theorem addField (h : Sited S t) {x : Ident} {access : Access} {τ : Ty}
    (hadd : t.addField id x access τ = .ok t') : Sited S t' := by
  unfold ClassTable.addField at hadd
  split at hadd <;> cases hadd
  exact h.modify (fun _ => rfl) (fun _ => rfl) (fun _ _ hm => .inl hm) fun _ => .inl rfl

theorem addMethod (h : Sited S t) {m : Method} (hm : m.span ∈ S id)
    (hadd : t.addMethod id m = .ok t') : Sited S t' := by
  unfold ClassTable.addMethod at hadd
  split at hadd <;> cases hadd
  refine h.modify (fun _ => rfl) (fun _ => rfl) (fun r m' hm' => ?_) fun _ => .inl rfl
  rcases List.mem_append.mp hm' with hm' | hm'
  · exact .inl hm'
  · exact .inr (List.mem_singleton.mp hm' ▸ hm)

theorem layoutOwn (h : Sited S t) (start : Nat) : Sited S (ClassTable.layoutOwn (start, t) id).2 := by
  unfold ClassTable.layoutOwn
  dsimp only
  split
  · exact h
  · exact h.modify (fun _ => rfl) (fun _ => rfl) (fun _ _ hm => .inl hm) fun _ => .inl rfl

theorem layoutClass (h : Sited S t) : Sited S (t.layoutClass id) := by
  have hchain (l : List Nat) (state : Nat × ClassTable) (hstate : Sited S state.2) :
      Sited S (l.foldl ClassTable.layoutOwn state).2 := by
    induction l generalizing state with
    | nil => exact hstate
    | cons a l ih => exact ih _ (hstate.layoutOwn state.1)
  unfold ClassTable.layoutClass
  split
  · exact h
  · exact hchain _ _ h

theorem layout (h : Sited S t) : Sited S t.layout := by
  unfold ClassTable.layout
  generalize List.range t.size = ids
  induction ids generalizing t with
  | nil => exact h
  | cons id ids ih => exact ih h.layoutClass

theorem declare (h : Sited S t) {x : Ident} (hd : t.declare x = .ok (id, t')) (hx : x.span ∈ S id) :
    Sited S t' ∧ TypeId.first ≤ id := by
  obtain ⟨_, rfl, rfl⟩ := declare_ok hd
  refine ⟨⟨fun j hj => ?_, fun j r hj hr => ?_⟩, h.first_le_size⟩
  · obtain ⟨r, hr, hrest⟩ := h.builtin j hj
    refine ⟨r, ?_, hrest⟩
    rwa [record?, List.getElem?_append_left (lt_of_record hr)]
  · rcases Nat.lt_trichotomy j t.size with hlt | rfl | hgt
    · rw [record?, List.getElem?_append_left hlt] at hr
      exact h.user j r hj hr
    · rw [record?, size, List.getElem?_concat_length] at hr
      cases hr
      exact ⟨hx, fun m hm => absurd hm List.not_mem_nil⟩
    · have hlt : j < (t.records ++ [ClassRecord.empty x.name x.span]).length :=
        (List.getElem?_eq_some_iff.mp hr).1
      rw [List.length_append, List.length_singleton] at hlt
      exact absurd hgt (Nat.not_lt_of_le (Nat.le_of_lt_succ hlt))

end Sited

end ClassTable

open Check

/-! ## The hierarchy -/

namespace Hierarchy

variable {S : TypeId → List Span} {P : List Span} {t : ClassTable}

/-- A class of the program is written at its places, and it does not have the index of a built-in class. -/
def Written (S : TypeId → List Span) (c : TypeId × ClassDecl Span) : Prop :=
  TypeId.first ≤ c.1 ∧ c.2.outline.Within (S c.1)

theorem name_mem {d : ClassDecl Span} (h : d.outline.Within P) : d.name.span ∈ P := h.2.1.span

theorem declareAll_sublist (t : ClassTable) (ds : List (ClassDecl Span)) :
    ((declareAll t ds).classes.map (·.2)).Sublist ds := by
  induction ds generalizing t with
  | nil => exact List.nil_sublist _
  | cons d ds ih =>
    unfold declareAll
    split
    · exact (ih _).cons_cons d
    · exact (ih t).cons d

theorem declareAll_sited (h : t.Sited S) {ds : List (ClassDecl Span)}
    (hcs : ∀ c ∈ (declareAll t ds).classes, c.2.outline.Within (S c.1)) :
    (declareAll t ds).table.Sited S ∧ ∀ c ∈ (declareAll t ds).classes, Written S c := by
  induction ds generalizing t with
  | nil => exact ⟨h, nofun⟩
  | cons d ds ih =>
    unfold declareAll at hcs ⊢
    cases hdeclare : t.declare d.name with
    | ok found =>
      obtain ⟨id, t'⟩ := found
      rw [hdeclare] at hcs
      obtain ⟨hd, hcs⟩ := List.forall_mem_cons.mp hcs
      obtain ⟨hsited, hid⟩ := h.declare hdeclare (name_mem hd)
      obtain ⟨htable, hclasses⟩ := ih hsited hcs
      exact ⟨htable, List.forall_mem_cons.mpr ⟨⟨hid, hd⟩, hclasses⟩⟩
    | error e =>
      rw [hdeclare] at hcs
      exact ih h hcs

theorem declareAll_blames {ds : List (ClassDecl Span)} (hds : ∀ d ∈ ds, d.outline.Within P) :
    Blames P (declareAll t ds).errors := by
  induction ds generalizing t with
  | nil => exact blames_nil
  | cons d ds ih =>
    obtain ⟨hd, hds⟩ := List.forall_mem_cons.mp hds
    unfold declareAll
    cases hdeclare : t.declare d.name with
    | ok found => exact ih hds
    | error e =>
      rw [ClassTable.declare_error hdeclare]
      exact blames_cons.mpr ⟨name_mem hd, ih hds⟩

theorem parentOf_blames (t : ClassTable) (d : ClassDecl Span) (h : d.outline.Within P) :
    Blames P (errorsOf (parentOf t d)) := by
  unfold parentOf
  split
  · exact blames_ok _
  · next x hparent =>
    obtain ⟨hparents, _⟩ := Outline.allWithin_append.mp h.2.2
    rw [hparent] at hparents
    have hx : x.span ∈ P := hparents.1.span
    refine (resolve_blames t x hx).bind fun id => ?_
    split_ifs
    · exact blames_error hx
    · exact blames_ok _

theorem linkAll_sited (h : t.Sited S) {cs : List (TypeId × ClassDecl Span)} (hcs : ∀ c ∈ cs, Written S c) :
    (linkAll t cs).1.Sited S := by
  induction cs generalizing t with
  | nil => exact h
  | cons c cs ih =>
    obtain ⟨hc, hcs⟩ := List.forall_mem_cons.mp hcs
    rw [linkAll_cons]
    exact ih (h.setParent_user hc.1 (some (linkOf t c.2))) hcs

theorem linkAll_blames {cs : List (TypeId × ClassDecl Span)} (hcs : ∀ c ∈ cs, c.2.outline.Within P) :
    Blames P ((linkAll t cs).2.map (·.2)) := by
  induction cs generalizing t with
  | nil => exact blames_nil
  | cons c cs ih =>
    obtain ⟨hc, hcs⟩ := List.forall_mem_cons.mp hcs
    rw [linkAll_cons, List.map_append]
    refine blames_append.mpr ⟨?_, ih hcs⟩
    have hparent := parentOf_blames t c.2 hc
    unfold badLink?
    split
    · exact blames_nil
    · next heq => exact hparent.of_error heq

/-- A climb closes no cycle at a built-in class: from such a class the climb goes to the root, and there it
ends. -/
theorem climb_closes (h : t.Sited S) {visited path path' : List TypeId} {bound : Nat} {id c : TypeId}
    (hany : TypeId.any ∉ path)
    (hpath : ∀ x ∈ path, t.parent? x ≠ none ∧ ((x : Nat) < TypeId.first → id = TypeId.any))
    (hclimb : climb t visited bound path id = (path', some c)) :
    TypeId.any ∉ path' ∧ ∃ r, t.record? c = some r ∧ r.span ∈ S c := by
  have hroot : t.parent? TypeId.any = none := by
    obtain ⟨r, hr, _, _, hnone⟩ := h.builtin TypeId.any (by decide)
    rw [ClassTable.parent_of_record hr]
    exact hnone rfl
  induction bound generalizing path id with
  | zero => cases hclimb
  | succ bound ih =>
    simp only [climb] at hclimb
    split at hclimb
    · next hmem =>
      cases hclimb
      obtain ⟨hparent, hbuiltin⟩ := hpath _ hmem
      obtain ⟨p, hp⟩ := Option.ne_none_iff_exists'.mp hparent
      obtain ⟨r, hr, _⟩ := Option.bind_eq_some_iff.mp hp
      refine ⟨hany, r, hr, (h.user _ r (Nat.le_of_not_lt fun hlt => ?_) hr).1⟩
      exact hany (hbuiltin hlt ▸ hmem)
    · split at hclimb
      · cases hclimb
      · cases hp : t.parent? id with
        | none =>
          rw [hp] at hclimb
          cases hclimb
        | some p =>
          rw [hp] at hclimb
          have hne : id ≠ TypeId.any := by
            rintro rfl
            exact Option.some_ne_none p (hp.symm.trans hroot)
          refine ih ?_ (List.forall_mem_cons.mpr ⟨⟨hp ▸ Option.some_ne_none p, fun hlt => ?_⟩, ?_⟩) hclimb
          · exact fun hmem => (List.mem_cons.mp hmem).elim (fun heq => hne heq.symm) hany
          · obtain ⟨r, hr, _, hup, _⟩ := h.builtin id hlt
            exact hup p (ClassTable.parent_of_record hr ▸ hp)
          · exact fun x hx => ⟨(hpath x hx).1, fun hlt => absurd ((hpath x hx).2 hlt) hne⟩

theorem climbFrom_sited {s : CycleSearch} (h : s.table.Sited S) (start : TypeId) :
    (s.climbFrom start).table.Sited S := by
  unfold CycleSearch.climbFrom
  split
  · exact h
  · next path id hclimb =>
    obtain ⟨hany, _⟩ := climb_closes h List.not_mem_nil nofun hclimb
    dsimp only
    split
    · next last hlast =>
      refine h.setParent_any ?_
      rintro rfl
      exact hany (List.mem_of_head? hlast)
    · exact h

theorem climbFrom_blames {s : CycleSearch} (h : s.table.Sited fun _ => P) (herrors : Blames P s.errors)
    (start : TypeId) : Blames P (s.climbFrom start).errors := by
  unfold CycleSearch.climbFrom
  split
  · exact herrors
  · next path id hclimb =>
    obtain ⟨_, r, hr, hspan⟩ := climb_closes h List.not_mem_nil nofun hclimb
    refine blames_append.mpr ⟨herrors, blames_cons.mpr ⟨?_, blames_nil⟩⟩
    rw [hr]
    exact hspan

theorem climbAll_sited (ids : List TypeId) {s : CycleSearch} (h : s.table.Sited S) :
    (ids.foldl CycleSearch.climbFrom s).table.Sited S := by
  induction ids generalizing s with
  | nil => exact h
  | cons id ids ih => exact ih (climbFrom_sited h id)

theorem climbAll_blames (ids : List TypeId) {s : CycleSearch} (h : s.table.Sited fun _ => P)
    (herrors : Blames P s.errors) : Blames P (ids.foldl CycleSearch.climbFrom s).errors := by
  induction ids generalizing s with
  | nil => exact herrors
  | cons id ids ih => exact ih (climbFrom_sited h id) (climbFrom_blames h herrors id)

/-- The table that is built has its classes at their places. -/
theorem build_sited {ds : List (ClassDecl Span)}
    (hcs : ∀ c ∈ (declareAll .standard ds).classes, c.2.outline.Within (S c.1)) :
    (build ds).table.Sited S ∧ ∀ c ∈ (build ds).classes, Written S c := by
  obtain ⟨hdeclared, hclasses⟩ := declareAll_sited ClassTable.standard_sited hcs
  refine ⟨climbAll_sited _ (linkAll_sited hdeclared hclasses), fun c hc => ?_⟩
  exact hclasses c (List.mem_filter.mp hc).1

theorem build_blames {ds : List (ClassDecl Span)} (hds : ∀ d ∈ ds, d.outline.Within P) :
    Blames P (build ds).errors := by
  have hcs : ∀ c ∈ (declareAll .standard ds).classes, c.2.outline.Within P := fun c hc =>
    hds c.2 ((declareAll_sublist .standard ds).subset (List.mem_map_of_mem hc))
  obtain ⟨hdeclared, hclasses⟩ := declareAll_sited (S := fun _ => P) ClassTable.standard_sited hcs
  have hcycles := climbAll_blames ((declareAll .standard ds).classes.map (·.1))
    (s := ⟨_, [], []⟩) (linkAll_sited hdeclared hclasses) blames_nil
  exact blames_append.mpr ⟨blames_append.mpr ⟨declareAll_blames hds, linkAll_blames hcs⟩, hcycles⟩

end Hierarchy

/-! ## Registration -/

namespace Registration

variable {S : List Span} {t : ClassTable}

theorem paramTypes_blames (t : ClassTable) (ps : List Param)
    (h : Outline.AllWithin S (ps.map Param.outline)) :
    Blames S (errorsOf (paramTypes t ps)) := by
  unfold paramTypes
  induction ps with
  | nil => exact blames_ok _
  | cons p ps ih =>
    obtain ⟨⟨_, _, hw, _⟩, hps⟩ := h
    rw [List.mapM_cons]
    refine (resolveType_blames t p.type hw).bind fun _ => ?_
    exact (ih hps).bind fun _ => blames_ok _

theorem returnType_blames (t : ClassTable) (w : Option TypeName)
    (h : Outline.AllWithin S (w.toList.map TypeName.outline)) : Blames S (errorsOf (returnType t w)) := by
  cases w with
  | none => exact blames_ok _
  | some w => exact resolveType_blames t w h.1

/-- The parts of a method. -/
theorem method_parts {d : MethodDecl Span} (h : (MemberDecl.method d).outline.Within S) :
    d.name.span ∈ S ∧ Outline.AllWithin S (d.params.map Param.outline) ∧
      Outline.AllWithin S (d.returns.toList.map TypeName.outline) ∧ d.body.outline.Within S := by
  obtain ⟨_, hname, h⟩ := h
  obtain ⟨hps, h⟩ := Outline.allWithin_append.mp h
  obtain ⟨hw, hbody, _⟩ := Outline.allWithin_append.mp h
  exact ⟨d.name.outline_span ▸ hname.span, hps, hw, hbody⟩

theorem methodOf_blames (t : ClassTable) (d : MethodDecl Span) (h : (MemberDecl.method d).outline.Within S) :
    Blames S (errorsOf (methodOf t d)) := by
  obtain ⟨hname, hps, hw, _⟩ := method_parts h
  have hrest : Blames S (errorsOf (do
      let params ← paramTypes t d.params
      let returns ← returnType t d.returns
      return (⟨d.name.key, d.access, params, returns, d.isOverride, d.name.span⟩ : Method))) :=
    (paramTypes_blames t _ hps).bind fun _ => (returnType_blames t _ hw).bind fun _ => blames_ok _
  unfold methodOf
  dsimp only
  split
  · split_ifs
    · exact blames_error hname
    · exact hrest
  · exact hrest

theorem methodOf_span {d : MethodDecl Span} {m : Method} (h : methodOf t d = .ok m) :
    m.span = d.name.span := by
  unfold methodOf at h
  split at h
  · split at h
    · cases h
    · simp only [bind_eq_ok, pure_eq_ok] at h
      obtain ⟨_, _, _, _, rfl⟩ := h
      rfl
  · simp only [bind_eq_ok, pure_eq_ok] at h
    obtain ⟨_, _, _, _, rfl⟩ := h
    rfl

theorem addMethod_blames (t : ClassTable) (id : TypeId) {m : Method} (h : m.span ∈ S) :
    Blames S (errorsOf (t.addMethod id m)) := by
  unfold ClassTable.addMethod
  split
  · exact blames_error h
  · exact blames_ok _

theorem member_blames (t : ClassTable) (id : TypeId) (m : MemberDecl Span) (h : m.outline.Within S) :
    Blames S (errorsOf (member t id m)) := by
  cases m with
  | field d =>
    obtain ⟨_, hname, hw, _⟩ := h
    refine (resolveType_blames t d.type hw).bind fun τ => ?_
    unfold ClassTable.addField
    split
    · exact blames_error hname.span
    · exact blames_ok _
  | method d =>
    have hmethod := methodOf_blames t d h
    rw [member]
    cases hm : methodOf t d with
    | error e =>
      rw [hm] at hmethod
      exact hmethod
    | ok m =>
      refine addMethod_blames t id ?_
      rw [methodOf_span hm]
      exact (method_parts h).1
  | constructor d =>
    obtain ⟨hs, h⟩ := h
    obtain ⟨hps, _⟩ := Outline.allWithin_append.mp h
    exact (paramTypes_blames t d.params hps).bind fun _ => addMethod_blames t id hs

section

variable {S : TypeId → List Span} {t' : ClassTable} {id : TypeId}

theorem member_sited (h : t.Sited S) {m : MemberDecl Span} (hm : m.outline.Within (S id))
    (hmember : member t id m = .ok t') : t'.Sited S := by
  cases m with
  | field d =>
    simp only [member, bind_eq_ok] at hmember
    obtain ⟨_, _, hadd⟩ := hmember
    exact h.addField hadd
  | method d =>
    simp only [member, bind_eq_ok] at hmember
    obtain ⟨m, hmethod, hadd⟩ := hmember
    refine h.addMethod ?_ hadd
    rw [methodOf_span hmethod]
    exact (method_parts hm).1
  | constructor d =>
    simp only [member, bind_eq_ok] at hmember
    obtain ⟨_, _, hadd⟩ := hmember
    exact h.addMethod hm.1 hadd

theorem memberList_sited (h : t.Sited S) {ms : List (MemberDecl Span)}
    (hms : ∀ m ∈ ms, m.outline.Within (S id)) : (memberList t id ms).table.Sited S ∧
      (∀ m ∈ (memberList t id ms).members, m.1.outline.Within (S id)) ∧
      Blames (S id) (memberList t id ms).errors := by
  induction ms generalizing t with
  | nil => exact ⟨h, List.forall_mem_nil _, blames_nil⟩
  | cons m ms ih =>
    obtain ⟨hm, hms⟩ := List.forall_mem_cons.mp hms
    have hblames := member_blames t id m hm
    unfold memberList
    cases hmember : member t id m with
    | ok t' =>
      obtain ⟨htable, hmembers, herrors⟩ := ih (member_sited h hm hmember) hms
      exact ⟨htable, List.forall_mem_cons.mpr ⟨hm, hmembers⟩, herrors⟩
    | error e =>
      obtain ⟨htable, hmembers, herrors⟩ := ih h hms
      exact ⟨htable, List.forall_mem_cons.mpr ⟨hm, hmembers⟩,
        blames_append.mpr ⟨hblames.of_error hmember, herrors⟩⟩

/-- What is entered for a class of the program was written at its places. -/
structure Entered.Written (S : TypeId → List Span) (c : Entered) : Prop where
  first_le : TypeId.first ≤ c.id
  decl : c.decl.outline.Within (S c.id)
  members : ∀ m ∈ c.members, m.1.outline.Within (S c.id)

theorem classDecl_sited (h : t.Sited S) {c : TypeId × ClassDecl Span} (hc : Hierarchy.Written S c) :
    (classDecl t c.1 c.2).1.Written S ∧ (classDecl t c.1 c.2).2.1.Sited S ∧
      Blames (S c.1) (classDecl t c.1 c.2).2.2 := by
  obtain ⟨hid, hd⟩ := hc
  have hname : (implicitConstructor c.2).span ∈ S c.1 := Hierarchy.name_mem hd
  obtain ⟨_, hms⟩ := Outline.allWithin_append.mp hd.2.2
  rw [Outline.allWithin_iff, List.forall_mem_map] at hms
  obtain ⟨htable, hmembers, herrors⟩ := memberList_sited h hms
  have hblames := addMethod_blames (memberList t c.1 c.2.members).table c.1 hname
  unfold classDecl
  dsimp only
  split
  · split
    · next hadd => exact ⟨⟨hid, hd, hmembers⟩, htable.addMethod hname hadd, herrors⟩
    · next hadd =>
      exact ⟨⟨hid, hd, hmembers⟩, htable, blames_append.mpr ⟨herrors, hblames.of_error hadd⟩⟩
  · exact ⟨⟨hid, hd, hmembers⟩, htable, herrors⟩

theorem classList_sited (h : t.Sited S) {cs : List (TypeId × ClassDecl Span)}
    (hcs : ∀ c ∈ cs, Hierarchy.Written S c) : (∀ c ∈ (classList t cs).1, c.Written S) ∧
      (classList t cs).2.1.Sited S ∧ ∀ e ∈ (classList t cs).2.2, ∃ c ∈ cs, e.span ∈ S c.1 := by
  induction cs generalizing t with
  | nil => exact ⟨List.forall_mem_nil _, h, List.forall_mem_nil _⟩
  | cons c cs ih =>
    obtain ⟨hc, hcs⟩ := List.forall_mem_cons.mp hcs
    obtain ⟨hentered, htable, herrors⟩ := classDecl_sited h hc
    obtain ⟨hothers, htable', hmore⟩ := ih htable hcs
    refine ⟨List.forall_mem_cons.mpr ⟨hentered, hothers⟩, htable', fun e he => ?_⟩
    rcases List.mem_append.mp he with he | he
    · exact ⟨c, List.mem_cons_self, herrors e he⟩
    · obtain ⟨c', hc', he⟩ := hmore e he
      exact ⟨c', List.mem_cons_of_mem _ hc', he⟩

end

end Registration

/-! ## Members -/

namespace Check

section

variable {S : List Span} {t : ClassTable} {id : TypeId}

theorem bindParams_blames (env : Environment) (ps : List Param) (τs : List Ty)
    (h : Outline.AllWithin S (ps.map Param.outline)) : Blames S (bindParams env ps τs).errors := by
  induction ps generalizing env τs with
  | nil => exact blames_nil
  | cons p ps ih =>
    cases τs with
    | nil => exact blames_nil
    | cons τ τs =>
      obtain ⟨⟨_, hname, _⟩, hps⟩ := h
      have hbind := bind_blames env p.name τ hname.span
      unfold bindParams
      split
      · exact ih _ τs hps
      · next heq => exact blames_append.mpr ⟨hbind.of_error heq, ih env τs hps⟩

theorem overrideParams_blames (t : ClassTable) (owner : TypeId) (is os : List Ty) (ps : List Param)
    (h : Outline.AllWithin S (ps.map Param.outline)) :
    Blames S (errorsOf (overrideParams t owner is os ps)) := by
  induction ps generalizing is os with
  | nil => cases is <;> cases os <;> exact blames_ok _
  | cons p ps ih =>
    obtain ⟨hp, hps⟩ := h
    cases is with
    | nil => exact blames_ok _
    | cons i is =>
      cases os with
      | nil => exact blames_ok _
      | cons o os =>
        unfold overrideParams
        split_ifs
        · exact ih is os hps
        · exact blames_error hp.span

theorem overrides_blames (t : ClassTable) (id : TypeId) {m : Method} {d : MethodDecl Span} (hm : m.span ∈ S)
    (h : (MemberDecl.method d).outline.Within S) : Blames S (errorsOf (overrides t id m d)) := by
  obtain ⟨_, hps, hw, _⟩ := Registration.method_parts h
  unfold overrides
  split
  · exact blames_ok _
  · exact blames_error hm
  · exact blames_error hm
  · next owner inherited _ _ =>
    have hparams := overrideParams_blames t owner inherited.params m.params d.params hps
    dsimp only
    split
    · exact blames_error hm
    · split
      · exact blames_error hm
      · refine hparams.bind fun _ => ?_
        split
        · exact blames_ok _
        · refine blames_error ?_
          unfold mismatch
          dsimp only
          split
          · next w hd =>
            rw [hd] at hw
            exact hw.1.type_span
          · exact hm

theorem baseCall_blames (env : Environment) (id : TypeId) (es : List (Expr Span)) {s : Span} (hs : s ∈ S)
    (h : Outline.AllWithin S (Expr.outlines es)) : Blames S (errorsOf (baseCall env id es s)) := by
  unfold baseCall
  split
  · exact blames_ok _
  · split
    · exact blames_error hs
    · next m _ =>
      refine (accessible_blames env _ _ m.access hs).bind fun _ => ?_
      exact (argumentCount_blames m.params es hs).bind fun _ => inferArguments_blames env m.params es h

theorem fieldDecl_blames (t : ClassTable) (id : TypeId) (d : FieldDecl Span)
    (h : (MemberDecl.field d).outline.Within S) : Blames S (fieldDecl t id d).2 := by
  obtain ⟨_, _, _, h⟩ := h
  simp only [fieldDecl, fieldIn, Checked.report, Environment.outside_classes]
  split
  · next e f heq _ =>
    rw [heq] at h
    obtain ⟨he, _⟩ := h
    have hinfer := infer_blames ((Environment.outside t).beginMember id .unit) e he
    split
    · exact assignable_blames _ _ _ he.note
    · next heq => exact hinfer.of_error heq
  · exact blames_nil

theorem methodDecl_blames {S : TypeId → List Span} (ht : t.Sited S) (hid : TypeId.first ≤ id)
    (d : MethodDecl Span) (h : (MemberDecl.method d).outline.Within (S id)) :
    Blames (S id) (methodDecl t id d).2 := by
  have hoverrides := fun m hm => @overrides_blames (S id) t id m d hm h
  obtain ⟨hname, hps, _, hbody⟩ := Registration.method_parts h
  simp only [methodDecl, methodIn, Checked.report, Environment.outside_classes]
  split
  · exact blames_nil
  · next m hm =>
    split
    · next heq => exact (hoverrides m (ht.method hid hm)).of_error heq
    · refine blames_append.mpr ⟨blames_append.mpr ⟨bindParams_blames _ _ _ hps, stmt_blames _ _ hbody⟩, ?_⟩
      split
      · exact blames_cons.mpr ⟨hname, blames_nil⟩
      · exact blames_nil

theorem constructorDecl_blames (t : ClassTable) (id : TypeId) (d : ConstructorDecl Span)
    (h : (MemberDecl.constructor d).outline.Within S) : Blames S (constructorDecl t id d).2 := by
  obtain ⟨hspan, h⟩ := h
  obtain ⟨hps, h⟩ := Outline.allWithin_append.mp h
  obtain ⟨hargs, hbody, _⟩ := Outline.allWithin_append.mp h
  simp only [constructorDecl, constructorIn, Checked.report, Environment.outside_classes]
  split
  · exact blames_nil
  · exact blames_append.mpr ⟨blames_append.mpr ⟨bindParams_blames _ _ _ hps,
      baseCall_blames _ _ _ hspan hargs⟩, stmt_blames _ _ hbody⟩

theorem member_blames {S : TypeId → List Span} (ht : t.Sited S) (hid : TypeId.first ≤ id)
    (m : MemberDecl Span) (h : m.outline.Within (S id)) : Blames (S id) (member t id m).2 := by
  cases m with
  | field d => exact fieldDecl_blames t id d h
  | method d => exact methodDecl_blames ht hid d h
  | constructor d => exact constructorDecl_blames t id d h

theorem classDecl_blames {S : TypeId → List Span} (ht : t.Sited S) {c : Registration.Entered}
    (hc : c.Written S) : Blames (S c.id) (classDecl t c).2 := by
  rw [classDecl_eq]
  refine blames_append.mpr ⟨fun e he => ?_, ?_⟩
  · obtain ⟨r, hr, he⟩ := List.mem_flatMap.mp he
    obtain ⟨m, hm, rfl⟩ := List.mem_map.mp hr
    unfold enteredMember at he
    split at he
    · exact member_blames ht hc.first_le m.1 (hc.members m hm) e he
    · cases he
  · split
    · exact baseCall_blames _ _ _ (Hierarchy.name_mem hc.decl) trivial
    · exact blames_nil

end

/-- Where every class of a program that has an index is written at the places of its index, so is what is
entered for the classes that are kept, and what goes wrong there is blamed on the class it is in. -/
theorem program_entered {S : TypeId → List Span} {p : Program Span}
    (hS : ∀ c ∈ (Hierarchy.declareAll .standard p.classes).classes, c.2.outline.Within (S c.1)) :
    let hierarchy := Hierarchy.build p.classes
    let entered := Registration.classList hierarchy.table hierarchy.classes
    (∀ c ∈ entered.1, c.Written S) ∧ entered.2.1.Sited S ∧
      ∀ e ∈ entered.2.2, ∃ c ∈ hierarchy.classes, e.span ∈ S c.1 := by
  obtain ⟨htable, hwritten⟩ := Hierarchy.build_sited hS
  exact Registration.classList_sited htable hwritten

/-- The classes of a program are written at places of the program. -/
theorem classes_within (p : Program Span) : ∀ d ∈ p.classes, d.outline.Within p.outline.spans := by
  obtain ⟨_, hclasses⟩ := p.outline.within_spans
  rwa [Outline.allWithin_iff, List.forall_mem_map] at hclasses

theorem declared_within (p : Program Span) :
    ∀ c ∈ (Hierarchy.declareAll .standard p.classes).classes, c.2.outline.Within p.outline.spans :=
  fun c hc => classes_within p c.2
    ((Hierarchy.declareAll_sublist .standard p.classes).subset (List.mem_map_of_mem hc))

/-- Every error of a program points at a place in its tree. -/
theorem program_blames {p : Program Span} {es : List SemanticError} (h : program p = .error es) :
    ∀ e ∈ es, e.span ∈ p.outline.spans := by
  obtain ⟨hwritten, hsited, hentered⟩ := program_entered (S := fun _ => p.outline.spans) (declared_within p)
  have hbuilt : Blames p.outline.spans (Hierarchy.build p.classes).errors :=
    Hierarchy.build_blames (classes_within p)
  have hchecked : Blames p.outline.spans
      (((Registration.classList (Hierarchy.build p.classes).table (Hierarchy.build p.classes).classes).1.map
        (classDecl (Registration.classList (Hierarchy.build p.classes).table
          (Hierarchy.build p.classes).classes).2.1.layout)).flatMap (·.2)) := by
    intro e he
    obtain ⟨r, hr, he⟩ := List.mem_flatMap.mp he
    obtain ⟨c, hc, rfl⟩ := List.mem_map.mp hr
    exact classDecl_blames hsited.layout (hwritten c hc) e he
  have hregistered : Blames p.outline.spans (Registration.classList (Hierarchy.build p.classes).table
      (Hierarchy.build p.classes).classes).2.2 := fun e he => (hentered e he).choose_spec.2
  have hall := blames_append.mpr ⟨blames_append.mpr ⟨hbuilt, hregistered⟩, hchecked⟩
  simp only [program_eq] at h
  split at h
  · cases h
  · cases h
    exact hall

/-- In the table of a checked program, the classes and methods of the program have places in its tree. -/
theorem program_sited {p : Program Span} {a : Analysis} (h : program p = .ok a) :
    a.classes.Sited fun _ => p.outline.spans := by
  obtain ⟨_, hsited, _⟩ := program_entered (S := fun _ => p.outline.spans) (declared_within p)
  simp only [program_eq] at h
  split at h <;> cases h
  exact hsited.layout

end Check

end ClassLang
