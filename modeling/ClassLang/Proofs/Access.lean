import ClassLang.Proofs.Erasure
import ClassLang.Proofs.Roots
import Mathlib.Logic.Relation

/-!
# Access control

Every use of a member in an accepted program is allowed (`Check.uses_granted`). `MemberUse` is a use as
it stands in the text: the class that the member is looked for on, and the name or key that is looked
for. `memberUses` collects the uses of a tree; the calls of the parent's constructor, written or not,
are among them. A use is granted if a member is found, and if the access level that the text gives the
member permits code of the using class to use it (`Program.Grants`).

The access level is that of the declaration in the text and not of the class table. That the table
holds no other one is a fact about registration and layout (`Check.program_declares`).
-/

namespace ClassLang

/-! ## Uses of members -/

/-- What a use of a member looks for: a field by its name, or a method, an operator or a constructor by
its key. -/
inductive MemberRef where
  | field (name : String)
  | method (key : MemberKey)
deriving DecidableEq, Repr

/-- A use of a member: the class that it is looked for on, if there is one, and what is looked for. -/
structure MemberUse where
  receiver : Option TypeId
  member : MemberRef
deriving DecidableEq, Repr

namespace Expr

/-- The class of the value of an expression that is never null. -/
def receiver? (e : Expr Typing) : Option TypeId :=
  match e.note.type with
  | some (.plain id) => some id
  | _ => none

/-- The class whose operator a binary expression with this left operand uses. -/
def operatorReceiver? (op : BinaryOp) (left : Expr Typing) : Option TypeId :=
  if left.note.type.any (·.isNullable) && op.isEquality then some TypeId.any else left.receiver?

mutual

/-- The uses of members in an expression. The callee of a call is a use of a method and not of a
field. -/
def memberUses (t : ClassTable) : Expr Typing → List MemberUse
  | .number _ _ | .string _ _ | .boolean _ _ | .null _ | .name _ _ | .this _ | .base _ => []
  | .member e x _ => ⟨e.receiver?, .field x.name⟩ :: e.memberUses t
  | .call (.member e x _) es _ =>
    ⟨e.receiver?, .method (.named x.name)⟩ :: (e.memberUses t ++ memberUsesList t es)
  | .call e es _ => e.memberUses t ++ memberUsesList t es
  | .new c es _ => ⟨t.find? c.name, .method .constructor⟩ :: memberUsesList t es
  | .assign e v _ => e.memberUses t ++ v.memberUses t
  | .binary op l r _ =>
    ⟨l.operatorReceiver? op, .method (.binary op)⟩ :: (l.memberUses t ++ r.memberUses t)
  | .unary op e _ => ⟨e.receiver?, .method (.unary op)⟩ :: e.memberUses t
  | .assert e _ | .instanceTest e _ _ | .cast e _ _ => e.memberUses t

/-- The uses of members in several expressions. -/
def memberUsesList (t : ClassTable) : List (Expr Typing) → List MemberUse
  | [] => []
  | e :: es => e.memberUses t ++ memberUsesList t es

end

end Expr

namespace Stmt

mutual

/-- The uses of members in a statement. -/
def memberUses (t : ClassTable) : Stmt Typing → List MemberUse
  | .define _ _ e _ | .expression e _ => e.memberUses t
  | .return e _ => Expr.memberUsesList t e.toList
  | .ifThen e b _ | .while e b _ => e.memberUses t ++ b.memberUses t
  | .ifElse e b c _ => e.memberUses t ++ (b.memberUses t ++ c.memberUses t)
  | .block bs _ => memberUsesList t bs

/-- The uses of members in several statements. -/
def memberUsesList (t : ClassTable) : List (Stmt Typing) → List MemberUse
  | [] => []
  | b :: bs => b.memberUses t ++ memberUsesList t bs

end

end Stmt

/-- The call of the parent's constructor with which every constructor of the class `self` starts. -/
def MemberUse.baseCall (t : ClassTable) (self : TypeId) : MemberUse :=
  ⟨t.parent? self, .method .constructor⟩

/-- The uses of members in a member of the class `self`. -/
def MemberDecl.memberUses (t : ClassTable) (self : TypeId) : MemberDecl Typing → List MemberUse
  | .field d => Expr.memberUsesList t d.initializer.toList
  | .method d => d.body.memberUses t
  | .constructor d =>
    .baseCall t self :: (Expr.memberUsesList t (d.baseArguments.getD []) ++ d.body.memberUses t)

/-- The uses of members in the class `self`. A class without a constructor gets one that calls the
parent's. -/
def ClassDecl.memberUses (t : ClassTable) (self : TypeId) (d : ClassDecl Typing) : List MemberUse :=
  d.members.flatMap (·.memberUses t self) ++
    if d.constructors.isEmpty then [.baseCall t self] else []

/-! ## What is allowed -/

namespace ClassTable

/-- The member that a class has, with the class that declares it and the access level. The nearest class
of the chain wins; constructors are not inherited. -/
def target? (t : ClassTable) (id : TypeId) : MemberRef → Option (TypeId × Access)
  | .field x => (t.lookupField? id x).map fun (owner, f) => (owner, f.access)
  | .method .constructor => (t.constructor? id).map fun m => (id, m.access)
  | .method key => (t.lookupMethod? id key).map fun (owner, m) => (owner, m.access)

/-- One class is another or inherits from it, at any distance. -/
def Inherits (t : ClassTable) : TypeId → TypeId → Prop :=
  Relation.ReflTransGen fun sub sup => t.parent? sub = some sup

end ClassTable

/-- An access level permits code of the class `user` to use a member that the class `owner` declares: a
private member is for its class alone, a protected one for the ancestors and descendants as well. -/
def Access.Permits (t : ClassTable) (user owner : TypeId) : Access → Prop
  | .everyone => True
  | .family => t.Inherits user owner ∨ t.Inherits owner user
  | .owner => user = owner

/-- A class declares a member with an access level. The constructor that a class without one gets is
public. -/
inductive ClassDecl.Declares {ν : Type} (d : ClassDecl ν) : MemberRef → Access → Prop
  | field {f : FieldDecl ν} : .field f ∈ d.members → d.Declares (.field f.name.name) f.access
  | method {m : MethodDecl ν} : .method m ∈ d.members → d.Declares (.method m.name.key) m.access
  | constructor {c : ConstructorDecl ν} :
    .constructor c ∈ d.members → d.Declares (.method .constructor) c.access
  | implicit : d.constructors = [] → d.Declares (.method .constructor) .everyone

/-- The class `owner` of a program declares a member with an access level. All members of the built-in
classes are public. -/
def Program.Declares {ν : Type} (p : Program ν) (owner : TypeId) (r : MemberRef) (access : Access) :
    Prop :=
  (owner < TypeId.first ∧ access = .everyone) ∨
    ∃ i d, owner = TypeId.first + i ∧ p.classes[i]? = some d ∧ d.Declares r access

/-- A use in code of the class `user` finds a member, and the access level that the text gives the
member permits the use. -/
def Program.Grants {ν : Type} (p : Program ν) (t : ClassTable) (user : TypeId) (u : MemberUse) : Prop :=
  ∃ id owner access, u.receiver = some id ∧ t.target? id u.member = some (owner, access) ∧
    p.Declares owner u.member access ∧ access.Permits t user owner

/-! ## Access levels in the class table -/

/-- The members of a class with their access levels. -/
def ClassRecord.entries (r : ClassRecord) : List (MemberRef × Access) :=
  r.fields.map (fun f => (.field f.name, f.access)) ++ r.methods.map fun m => (.method m.key, m.access)

/-- `t'` has no members but those of `t` and those that `D` tells. -/
def ClassTable.Adds (t t' : ClassTable) (D : TypeId → MemberRef → Access → Prop) : Prop :=
  ∀ (j : Nat) r', t'.record? j = some r' →
    ∃ r, t.record? j = some r ∧ ∀ e ∈ r'.entries, e ∈ r.entries ∨ D j e.1 e.2

namespace AccessLemmas

open Hierarchy.HierarchyLemmas

variable {t t' t'' : ClassTable} {D D' : TypeId → MemberRef → Access → Prop}

theorem adds_refl : t.Adds t D := fun _ r h => ⟨r, h, fun _ he => .inl he⟩

theorem adds_trans (h : t.Adds t' D) (h' : t'.Adds t'' D) : t.Adds t'' D := by
  intro j r'' hr''
  obtain ⟨r', hr', hnew'⟩ := h' j r'' hr''
  obtain ⟨r, hr, hnew⟩ := h j r' hr'
  exact ⟨r, hr, fun e he => (hnew' e he).elim (hnew e) .inr⟩

theorem adds_mono (hD : ∀ j m access, D j m access → D' j m access) (h : t.Adds t' D) :
    t.Adds t' D' := by
  intro j r' hr'
  obtain ⟨r, hr, hnew⟩ := h j r' hr'
  exact ⟨r, hr, fun e he => (hnew e he).imp_right (hD j e.1 e.2)⟩

theorem adds_modify {id : TypeId} {f : ClassRecord → ClassRecord}
    (hf : ∀ r, ∀ e ∈ (f r).entries, e ∈ r.entries ∨ D id e.1 e.2) : t.Adds (t.modify id f) D := by
  intro j r' hr'
  rw [record_modify] at hr'
  split at hr'
  · next h =>
    subst h
    obtain ⟨r, hr, rfl⟩ := Option.map_eq_some_iff.mp hr'
    exact ⟨r, hr, hf r⟩
  · exact ⟨r', hr', fun _ he => .inl he⟩

theorem addField_adds {id : TypeId} {x : Ident} {access : Access} {τ : Ty}
    (h : t.addField id x access τ = .ok t') (hD : D id (.field x.name) access) : t.Adds t' D := by
  unfold ClassTable.addField at h
  split at h
  · cases h
  · cases h
    refine adds_modify fun r e he => ?_
    simp only [ClassRecord.entries, List.map_append, List.mem_append, List.map_cons, List.map_nil,
      List.mem_singleton] at he ⊢
    rcases he with (he | rfl) | he
    · exact .inl (.inl he)
    · exact .inr hD
    · exact .inl (.inr he)

theorem addMethod_adds {id : TypeId} {m : Method} (h : t.addMethod id m = .ok t')
    (hD : D id (.method m.key) m.access) : t.Adds t' D := by
  unfold ClassTable.addMethod at h
  split at h
  · cases h
  · cases h
    refine adds_modify fun r e he => ?_
    simp only [ClassRecord.entries, List.map_append, List.mem_append, List.map_cons, List.map_nil,
      List.mem_singleton] at he ⊢
    rcases he with he | he | rfl
    · exact .inl (.inl he)
    · exact .inl (.inr he)
    · exact .inr hD

theorem methodOf_access {d : MethodDecl Span} {m : Method} (h : Registration.methodOf t d = .ok m) :
    m.key = d.name.key ∧ m.access = d.access := by
  unfold Registration.methodOf at h
  split at h
  · split at h
    · cases h
    · simp only [bind_eq_ok, pure_eq_ok] at h
      obtain ⟨_, _, _, _, rfl⟩ := h
      exact ⟨rfl, rfl⟩
  · simp only [bind_eq_ok, pure_eq_ok] at h
    obtain ⟨_, _, _, _, rfl⟩ := h
    exact ⟨rfl, rfl⟩

theorem member_adds {id : TypeId} {d : ClassDecl Span} {m : MemberDecl Span} (hm : m ∈ d.members)
    (h : Registration.member t id m = .ok t') :
    t.Adds t' fun j r access => j = id ∧ d.Declares r access := by
  cases m with
  | field f =>
    simp only [Registration.member, bind_eq_ok] at h
    obtain ⟨_, _, h⟩ := h
    exact addField_adds h ⟨rfl, .field hm⟩
  | method md =>
    simp only [Registration.member, bind_eq_ok] at h
    obtain ⟨m, hmethod, h⟩ := h
    obtain ⟨hkey, haccess⟩ := methodOf_access hmethod
    exact addMethod_adds h ⟨rfl, hkey ▸ haccess ▸ .method hm⟩
  | constructor c =>
    simp only [Registration.member, bind_eq_ok] at h
    obtain ⟨_, _, h⟩ := h
    exact addMethod_adds h ⟨rfl, .constructor hm⟩

theorem memberList_adds {id : TypeId} {d : ClassDecl Span} {ms : List (MemberDecl Span)}
    (hms : ∀ m ∈ ms, m ∈ d.members) :
    t.Adds (Registration.memberList t id ms).table fun j r access => j = id ∧ d.Declares r access := by
  induction ms generalizing t with
  | nil => exact adds_refl
  | cons m ms ih =>
    obtain ⟨hm, hms⟩ := List.forall_mem_cons.mp hms
    simp only [Registration.memberList]
    split
    · next h => exact adds_trans (member_adds hm h) (ih hms)
    · exact ih hms

theorem classDecl_adds {id : TypeId} {d : ClassDecl Span} :
    t.Adds (Registration.classDecl t id d).2.1 fun j r access => j = id ∧ d.Declares r access := by
  have hmembers := @memberList_adds t id d d.members fun _ h => h
  simp only [Registration.classDecl]
  split
  · next hempty =>
    split
    · next h =>
      exact adds_trans hmembers (addMethod_adds h ⟨rfl, .implicit (List.isEmpty_iff.mp hempty)⟩)
    · exact hmembers
  · exact hmembers

theorem classList_adds {cs : List (TypeId × ClassDecl Span)} :
    t.Adds (Registration.classList t cs).2.1
      fun j r access => ∃ c ∈ cs, j = c.1 ∧ c.2.Declares r access := by
  induction cs generalizing t with
  | nil => exact adds_refl
  | cons c cs ih =>
    refine adds_trans (adds_mono ?_ (@classDecl_adds t c.1 c.2)) (adds_mono ?_ ih)
    · exact fun j r access h => ⟨c, List.mem_cons_self, h⟩
    · exact fun j r access ⟨c', hc', h⟩ => ⟨c', List.mem_cons_of_mem _ hc', h⟩

/-- Laying out adds no member. -/
theorem layout_adds : t.Adds t.layout D := by
  have hlays := ClassTable.LayoutLemmas.layout_lays t
  intro j r' hr'
  obtain ⟨r, hr⟩ := ClassTable.exists_record (hlays.size ▸ ClassTable.lt_of_record hr' : j < t.size)
  obtain ⟨fields, count, hr'', hfields⟩ := hlays.each j r hr
  cases hr'.symm.trans hr''
  have hsame : fields.map (fun f => (MemberRef.field f.name, f.access)) =
      r.fields.map fun f => (.field f.name, f.access) := by
    simpa [Function.comp_def, ClassTable.blankField] using
      congrArg (List.map fun f => (MemberRef.field f.name, f.access)) hfields
  exact ⟨r, hr, fun e he => .inl (by simpa only [ClassRecord.entries, hsame] using he)⟩

theorem standard_entries {id : Nat} (hid : id < TypeId.first) {r : ClassRecord}
    (hr : ClassTable.standard.record? id = some r) {e : MemberRef × Access} (he : e ∈ r.entries) :
    e.2 = .everyone := by
  have hall : ∀ id < 6, ∀ r ∈ ClassTable.standard.record? id, ∀ e ∈ r.entries, e.2 = .everyone := by
    decide +kernel
  exact hall id hid r hr e he

/-- What a class has, one class of its chain lists among its members. -/
theorem target_entry {id owner : TypeId} {m : MemberRef} {access : Access}
    (h : t.target? id m = some (owner, access)) :
    ∃ r, t.record? owner = some r ∧ (m, access) ∈ r.entries := by
  have hfield {r : ClassRecord} {x : String} {f : Field} (hf : r.field? x = some f) :
      (MemberRef.field x, f.access) ∈ r.entries := by
    obtain rfl : f.name = x := by simpa using List.find?_some hf
    exact List.mem_append_left _ (List.mem_map.mpr ⟨f, List.mem_of_find?_eq_some hf, rfl⟩)
  have hmethod {r : ClassRecord} {key : MemberKey} {md : Method} (hm : r.method? key = some md) :
      (MemberRef.method key, md.access) ∈ r.entries := by
    obtain rfl : md.key = key := by simpa using List.find?_some hm
    exact List.mem_append_right _ (List.mem_map.mpr ⟨md, List.mem_of_find?_eq_some hm, rfl⟩)
  unfold ClassTable.target? at h
  split at h
  · obtain ⟨⟨_, f⟩, hf, heq⟩ := Option.map_eq_some_iff.mp h
    cases heq
    obtain ⟨_, r, hr, hfound⟩ := ClassTable.lookupField_some hf
    exact ⟨r, hr, hfield hfound⟩
  · obtain ⟨md, hm, heq⟩ := Option.map_eq_some_iff.mp h
    cases heq
    obtain ⟨r, hr, hfound⟩ := Option.bind_eq_some_iff.mp hm
    exact ⟨r, hr, hmethod hfound⟩
  · obtain ⟨⟨_, md⟩, hm, heq⟩ := Option.map_eq_some_iff.mp h
    cases heq
    obtain ⟨_, r, hr, hfound⟩ := ClassTable.lookupMethod_some hm
    exact ⟨r, hr, hmethod hfound⟩

end AccessLemmas

open AccessLemmas

/-- The class table of an accepted program has the members of the text with their access levels. -/
theorem Check.program_declares {p : Program Span} {a : Analysis} (h : Check.program p = .ok a)
    {id owner : TypeId} {m : MemberRef} {access : Access}
    (htarget : a.classes.target? id m = some (owner, access)) : p.Declares owner m access := by
  obtain ⟨r, hr, hentry⟩ := target_entry htarget
  obtain ⟨hbuild, entered, t, hlist, rfl, _⟩ := Check.program_ok h
  obtain ⟨hclasses, hsize, _, hstandard, huser⟩ := Hierarchy.build_ok hbuild
  have hadds := adds_trans (@classList_adds (Hierarchy.build p.classes).table
    (Hierarchy.build p.classes).classes) (layout_adds (t := (Registration.classList
      (Hierarchy.build p.classes).table (Hierarchy.build p.classes).classes).2.1))
  rw [hlist] at hadds
  obtain ⟨r₀, hr₀, hnew⟩ := hadds owner r hr
  rcases hnew _ hentry with hold | ⟨c, hc, rfl, hdeclares⟩
  · by_cases hid : owner < TypeId.first
    · rw [hstandard owner hid] at hr₀
      exact .inl ⟨hid, standard_entries hid hr₀ hold⟩
    · -- The classes of the program had no members before they were entered.
      have hlt : owner < TypeId.first + p.classes.length := hsize ▸ ClassTable.lt_of_record hr₀
      obtain ⟨i, rfl⟩ := Nat.exists_eq_add_of_le (Nat.le_of_not_lt hid)
      have hi : i < p.classes.length := Nat.lt_of_add_lt_add_left hlt
      obtain ⟨q, _, hblank⟩ := huser i _ (List.getElem?_eq_getElem hi)
      rw [hr₀] at hblank
      cases hblank
      cases hold
  · rw [hclasses] at hc
    obtain ⟨i, hi⟩ := List.mem_iff_getElem?.mp hc
    obtain ⟨hindex, hd⟩ := List.getElem?_zip_eq_some.mp hi
    obtain ⟨_, hget⟩ := List.getElem?_eq_some_iff.mp hindex
    exact .inr ⟨i, c.2, by simpa using hget.symm, hd, hdeclares⟩

/-- The constructor that a class of an accepted program gets if it declares none is in order. -/
theorem Check.program_implicit {p : Program Span} {a : Analysis} (h : Check.program p = .ok a) {i : Nat}
    {d : ClassDecl Span} (hd : p.classes[i]? = some d) (hnone : d.constructors = []) :
    Check.implicitConstructor a.classes (TypeId.first + i) d.name.span = [] := by
  obtain ⟨hbuild, entered, t, hlist, rfl, hchecked⟩ := Check.program_ok h
  obtain ⟨rfl, _⟩ := Check.entered_ok hbuild hlist
  have hi : i < p.classes.length := (List.getElem?_eq_some_iff.mp hd).1
  have hget : ((List.range' TypeId.first p.classes.length).zip p.classes)[i]? =
      some (TypeId.first + i, d) :=
    List.getElem?_zip_eq_some.mpr ⟨by simp [hi], hd⟩
  have hclass := hchecked _ (List.mem_map_of_mem (List.mem_of_getElem? hget))
  simp only [Check.classDecl_eq, hnone, List.isEmpty_nil, ↓reduceIte, List.append_eq_nil_iff] at hclass
  exact hclass.2

/-! ## Every use is allowed -/

/-- The use finds a member, and the check lets code of the class `user` use it. -/
def MemberUse.Accessible (t : ClassTable) (user : TypeId) (u : MemberUse) : Prop :=
  ∃ id owner access, u.receiver = some id ∧ t.target? id u.member = some (owner, access) ∧
    t.canAccess (some user) owner access = true

namespace AccessLemmas

variable {t : ClassTable} {env : Environment} {cls : TypeId} {result : Ty}

theorem mem_memberUsesList {es : List (Expr Typing)} {u : MemberUse} :
    u ∈ Expr.memberUsesList t es ↔ ∃ e ∈ es, u ∈ e.memberUses t := by
  induction es with
  | nil => simp [Expr.memberUsesList]
  | cons e es ih => simp [Expr.memberUsesList, ih]

theorem memberUsesList_append (es fs : List (Expr Typing)) :
    Expr.memberUsesList t (es ++ fs) = Expr.memberUsesList t es ++ Expr.memberUsesList t fs := by
  induction es with
  | nil => rfl
  | cons e es ih => simp only [List.cons_append, Expr.memberUsesList, ih, List.append_assoc]

mutual

theorem memberUses_roots : ∀ s : Stmt Typing, Expr.memberUsesList t s.roots = s.memberUses t
  | .define .. | .expression .. => List.append_nil _
  | .return .. => rfl
  | .ifThen e b _ | .while e b _ => by
    simp only [Stmt.roots, Stmt.memberUses, Expr.memberUsesList, memberUses_roots b]
  | .ifElse e b c _ => by
    simp only [Stmt.roots, Stmt.memberUses, Expr.memberUsesList, memberUsesList_append, memberUses_roots b,
      memberUses_roots c]
  | .block bs _ => memberUsesList_roots bs

theorem memberUsesList_roots : ∀ ss : List (Stmt Typing),
    Expr.memberUsesList t (Stmt.rootsList ss) = Stmt.memberUsesList t ss
  | [] => rfl
  | s :: ss => by
    simp only [Stmt.rootsList, Stmt.memberUsesList, memberUsesList_append, memberUses_roots s,
      memberUsesList_roots ss]

end

/-- A member of a class uses what its roots use, and a constructor the parent's constructor as well. -/
theorem mem_memberUses {m : MemberDecl Typing} {u : MemberUse} (hu : u ∈ m.memberUses t cls) :
    u = .baseCall t cls ∨ ∃ e ∈ m.roots, u ∈ e.memberUses t := by
  rw [← mem_memberUsesList]
  cases m with
  | field d => exact .inr hu
  | method d => exact .inr (memberUses_roots d.body ▸ hu)
  | constructor d =>
    rw [MemberDecl.roots, memberUsesList_append, memberUses_roots]
    exact List.mem_cons.mp hu

theorem receiver_typed {e : Expr Typing} {id : TypeId} (h : Typed env e (.plain id)) :
    e.receiver? = some id := by
  simp [Expr.receiver?, h.note_type]

theorem operatorReceiver_typed {op : BinaryOp} {l : Expr Typing} {τ : Ty} {id : TypeId}
    (h : Typed env l τ) (hid : OperatorClass op τ id) : l.operatorReceiver? op = some id := by
  unfold Expr.operatorReceiver?
  simp only [h.note_type, Option.any_some]
  unfold OperatorClass at hid
  split
  · next hnull => rw [if_pos hnull] at hid; rw [hid]
  · next hnull =>
    rw [if_neg hnull] at hid
    exact receiver_typed (hid.1 ▸ h)

theorem list_accessible {es : List (Expr Typing)} {τs : List Ty} (hlen : es.length = τs.length)
    (h : ∀ a ∈ es.zip τs, ∀ u ∈ a.1.memberUses t, u.Accessible t cls) :
    ∀ u ∈ Expr.memberUsesList t es, u.Accessible t cls := by
  intro u hu
  obtain ⟨e, he, hu⟩ := mem_memberUsesList.mp hu
  exact Lower.LowerableLemmas.of_zip (P := fun e => ∀ u ∈ e.memberUses t, u.Accessible t cls) hlen h e he u hu

/-- The uses of members in a well-typed expression are accessible to the class of `this`. -/
theorem typed_accessible (hin : env.Inside t cls result) {e : Expr Typing} {τ : Ty}
    (h : Typed env e τ) : ∀ u ∈ e.memberUses t, u.Accessible t cls := by
  obtain ⟨rfl, hthis, -⟩ := hin
  -- A use of what is found on a class, with the check that every rule of typing makes.
  have huse {id owner : TypeId} {access : Access} {u : MemberUse} (hid : u.receiver = some id)
      (htarget : env.classes.target? id u.member = some (owner, access))
      (hcan : env.classes.canAccess env.thisClass owner access = true) :
      u.Accessible env.classes cls :=
    ⟨id, owner, access, hid, htarget, hthis ▸ hcan⟩
  induction h with
  | number | string | boolean | null | name | this | base => simp [Expr.memberUses]
  | member he _ hf hcan ih =>
    refine List.forall_mem_cons.mpr ⟨huse (receiver_typed he) ?_ hcan, ih⟩
    simp only [ClassTable.target?, hf, Option.map_some]
  | call he _ hm hcan hlen _ _ ih ihs =>
    refine List.forall_mem_cons.mpr ⟨huse (receiver_typed he) ?_ hcan, List.forall_mem_append.mpr
      ⟨ih, list_accessible hlen ihs⟩⟩
    simp only [ClassTable.target?, hm, Option.map_some]
  | new hid hm hcan hlen _ _ ihs =>
    refine List.forall_mem_cons.mpr ⟨huse hid ?_ hcan, list_accessible hlen ihs⟩
    simp only [ClassTable.target?, hm, Option.map_some]
  | assignName _ _ _ ih => simpa [Expr.memberUses] using ih
  | assignMember he _ hf hcan _ _ _ ih ih' =>
    refine List.forall_mem_append.mpr ⟨List.forall_mem_cons.mpr
      ⟨huse (receiver_typed he) ?_ hcan, ih⟩, ih'⟩
    simp only [ClassTable.target?, hf, Option.map_some]
  | binary hl _ hid hm hcan _ ih ih' =>
    refine List.forall_mem_cons.mpr ⟨huse (operatorReceiver_typed hl hid) ?_ hcan,
      List.forall_mem_append.mpr ⟨ih, ih'⟩⟩
    simp only [ClassTable.target?, hm, Option.map_some]
  | unary he _ hm hcan ih =>
    refine List.forall_mem_cons.mpr ⟨huse (receiver_typed he) ?_ hcan, ih⟩
    simp only [ClassTable.target?, hm, Option.map_some]
  | assert _ ih | instanceTest _ _ _ ih | cast _ _ _ ih => exact ih

/-- A base call that is found to be right may be made. -/
theorem baseCall_accessible {id parent : TypeId} (hin : env.Inside t id result)
    (hp : t.parent? id = some parent) {es : List (Expr Span)} {s : Span} {es' : List (Expr Typing)}
    (h : Check.baseCall env id es s = .ok es') : (MemberUse.baseCall t id).Accessible t id := by
  obtain ⟨rfl, hthis, -⟩ := hin
  simp only [Check.baseCall, hp] at h
  split at h
  · cases h
  · next base hbase =>
    simp only [bind_eq_ok, Check.TypedLemmas.accessible_ok, hthis] at h
    obtain ⟨_, hcan, _⟩ := h
    refine ⟨parent, parent, base.access, hp, ?_, hcan⟩
    simp only [MemberUse.baseCall, ClassTable.target?, hbase, Option.map_some]

/-- The constructors of a class of an accepted program, written or not, may call the parent's. -/
theorem program_baseCall {p : Program Span} {a : Analysis} (h : Check.program p = .ok a) {i : Nat}
    {d : ClassDecl Span} (hd : p.classes[i]? = some d) :
    (MemberUse.baseCall a.classes (TypeId.first + i)).Accessible a.classes (TypeId.first + i) := by
  obtain ⟨parent, r, hc⟩ := (Check.program_wellTyped h).each i _ (Check.program_class h hd)
  have hp := hc.parent_eq
  cases hcs : d.constructors with
  | nil =>
    have himplicit := Check.program_implicit h hd hcs
    obtain ⟨_, hbase⟩ := Check.errorsOf_eq_nil himplicit
    exact baseCall_accessible ⟨rfl, rfl, rfl⟩ hp hbase
  | cons c cs =>
    have hmem : MemberDecl.constructor c ∈ d.members := by
      obtain ⟨m, hm, hmc⟩ := List.mem_filterMap.mp (hcs ▸ List.mem_cons_self : c ∈ d.constructors)
      cases m <;> cases hmc
      exact hm
    have herrors := Check.program_members h hd _ hmem
    obtain ⟨m, _, hm, _⟩ := hc.constructor
    have hown : a.classes.constructor? (TypeId.first + i) = some m := by
      rw [ClassTable.constructor?, hc.record]
      exact hm
    simp only [Check.member_constructor, Check.constructorDecl, Check.constructorIn, Checked.report,
      Environment.outside_classes, hown, List.append_eq_nil_iff] at herrors
    obtain ⟨_, hbase⟩ := Check.errorsOf_eq_nil herrors.1.2
    exact baseCall_accessible (Check.params_bound herrors.1.1).inside hp hbase

/-- The uses of members in a class of an accepted program are accessible to it. -/
theorem class_accessible {p : Program Span} {a : Analysis} (h : Check.program p = .ok a) {i : Nat}
    {d : ClassDecl Typing} (hd : a.program.classes[i]? = some d) :
    ∀ u ∈ d.memberUses a.classes (TypeId.first + i), u.Accessible a.classes (TypeId.first + i) := by
  have hi : i < p.classes.length := by
    have hlen : a.program.classes.length = p.classes.length := by simp [Check.program_classes h]
    exact hlen ▸ (List.getElem?_eq_some_iff.mp hd).1
  have hbase := program_baseCall h (List.getElem?_eq_getElem hi)
  obtain ⟨parent, r, hc⟩ := (Check.program_wellTyped h).each i d hd
  refine List.forall_mem_append.mpr ⟨fun u hu => ?_, ?_⟩
  · obtain ⟨m, hm, hu⟩ := List.mem_flatMap.mp hu
    obtain rfl | ⟨e, he, hu⟩ := mem_memberUses hu
    · exact hbase
    · obtain ⟨env, result, τ, hin, htyped⟩ := hc.roots_typed m hm e he
      exact typed_accessible hin htyped u hu
  · split
    · exact List.forall_mem_singleton.mpr hbase
    · exact fun _ hu => absurd hu List.not_mem_nil

/-- The check of an access level is right. -/
theorem permits_of_canAccess {user owner : TypeId} {access : Access}
    (h : t.canAccess (some user) owner access = true) : access.Permits t user owner := by
  -- A chain leads from parent to parent, whatever its bound.
  have hlineage : ∀ (bound : Nat) (sub sup : TypeId), sup ∈ lineage t.parent? bound sub →
      t.Inherits sub sup := by
    intro bound
    induction bound with
    | zero => exact fun _ _ h => absurd h List.not_mem_nil
    | succ bound ih =>
      intro sub sup h
      rw [lineage, List.mem_cons] at h
      rcases h with rfl | h
      · exact .refl
      · cases hp : t.parent? sub with
        | none => simp [hp] at h
        | some parent =>
          rw [hp] at h
          exact .head hp (ih parent sup h)
  have hinherits {sub sup : TypeId} (h : t.isSubclass sub sup = true) : t.Inherits sub sup :=
    hlineage _ _ _ (ClassTable.isSubclass_iff.mp h)
  cases access with
  | everyone => trivial
  | family =>
    simp only [ClassTable.canAccess, Bool.or_eq_true] at h
    exact h.imp hinherits hinherits
  | owner =>
    simp only [ClassTable.canAccess, beq_iff_eq, Option.some.injEq] at h
    exact h

end AccessLemmas

open AccessLemmas

/-- Access control is complete: every use of a member in an accepted program is allowed. The annotated
tree is the text with the types of its expressions, and each use in it, the calls of the parent's
constructor among them, finds a member whose access level in the text permits code of the class to use
it. -/
theorem Check.uses_granted {p : Program Span} {a : Analysis} (h : Check.program p = .ok a) :
    a.program.map Typing.span = p ∧ ∀ (i : Nat) d, a.program.classes[i]? = some d →
      ∀ u ∈ d.memberUses a.classes (TypeId.first + i), p.Grants a.classes (TypeId.first + i) u := by
  refine ⟨Check.program_erased h, fun i d hd u hu => ?_⟩
  obtain ⟨id, owner, access, hid, htarget, hcan⟩ := class_accessible h hd u hu
  exact ⟨id, owner, access, hid, htarget, Check.program_declares h htarget,
    permits_of_canAccess hcan⟩

/-- A class with a private field, a protected method and a protected constructor, and a subclass that
uses what is protected: the method in its own, the constructor because it declares none. -/
def vault : Program Span :=
  let name (x : String) : Ident := ⟨x, .none⟩
  let result (e : Expr Span) : Stmt Span := .return (some e) .none
  ⟨[⟨name "Vault", none, [
      .field ⟨.owner, name "secret", .named (name "string"), some (.string "s" .none), .none⟩,
      .constructor ⟨.family, [], none, .block [] .none, .none⟩,
      .method ⟨.family, false, .named (name "open"), [], some (.named (name "string")),
        result (.member (.this .none) (name "secret") .none), .none⟩], .none⟩,
    ⟨name "Key", some (name "Vault"), [
      .method ⟨.everyone, false, .named (name "turn"), [], some (.named (name "string")),
        result (.call (.member (.this .none) (name "open") .none) [] .none), .none⟩], .none⟩], .none⟩

/-- Its uses of members. -/
theorem vault_granted : ∃ a, Check.program vault = .ok a ∧
    (a.program.classes.zipIdx.map fun d => d.1.memberUses a.classes (TypeId.first + d.2)) =
      [[⟨some TypeId.any, .method .constructor⟩, ⟨some 6, .field "secret"⟩],
        [⟨some 7, .method (.named "open")⟩, ⟨some 6, .method .constructor⟩]] ∧
    a.program.map Typing.span = vault ∧ ∀ (i : Nat) d, a.program.classes[i]? = some d →
      ∀ u ∈ d.memberUses a.classes (TypeId.first + i), vault.Grants a.classes (TypeId.first + i) u := by
  have hcheck : (Check.program vault).toOption.map (fun a =>
      a.program.classes.zipIdx.map fun d => d.1.memberUses a.classes (TypeId.first + d.2)) =
      some [[⟨some TypeId.any, .method .constructor⟩, ⟨some 6, .field "secret"⟩],
        [⟨some 7, .method (.named "open")⟩, ⟨some 6, .method .constructor⟩]] := by
    decide +kernel
  obtain ⟨a, ha, huses⟩ := Option.map_eq_some_iff.mp hcheck
  rw [toOption_eq_some] at ha
  exact ⟨a, ha, huses, Check.uses_granted ha⟩

end ClassLang
