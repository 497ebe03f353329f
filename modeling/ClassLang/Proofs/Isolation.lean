import ClassLang.Proofs.Threading

/-!
# Members are isolated

Two programs that differ inside one member have the same errors before and behind those of that member
(`Check.members_isolated`). What is inside a member is the initializer of a field, the body of a method,
or the base arguments and the body of a constructor (`MemberDecl.hollow`); no stage before the check of
the members reads it. The check itself takes its environment from one member to the next, but finds of each
what it finds of that member on its own (`Check.program_eq`).

The stages take lists of classes and of members apart one by one, so each has a lemma about lists that
are joined. From these lemmas it follows that one entry can be exchanged for another without a change
around it. The lemmas of this kind are stated for all entries that may stand at the place at once: what
is around the entry is then chosen before the entry is.
-/

namespace ClassLang

variable {ν : Type}

/-- A member without what is inside it. -/
def MemberDecl.hollow : MemberDecl ν → MemberDecl ν
  | .field d => .field { d with initializer := none }
  | .method d => .method { d with body := .block [] .none }
  | .constructor d => .constructor { d with baseArguments := none, body := .block [] .none }

/-- The programs are the same but for what is inside the member number `j` of the class number `i`. -/
inductive Program.DifferInside : Program ν → Program ν → Nat → Nat → Prop
  | intro {pre post : List (ClassDecl ν)} {name : Ident} {parent : Option Ident}
      {before after : List (MemberDecl ν)} {m m' : MemberDecl ν} {s s' : Span} :
      m.hollow = m'.hollow →
      DifferInside ⟨pre ++ ⟨name, parent, before ++ m :: after, s⟩ :: post, s'⟩
        ⟨pre ++ ⟨name, parent, before ++ m' :: after, s⟩ :: post, s'⟩ pre.length before.length

/-! ## The errors of a program -/

/-- The index that a class of a program gets, unless its name is taken. -/
def Hierarchy.idOf? (cs : List (ClassDecl Span)) (i : Nat) : Option TypeId :=
  cs[i]?.bind fun d => ((declareAll .standard (cs.take i)).table.declare d.name).toOption.map (·.1)

namespace Check

/-- The errors of a program. -/
def errors (p : Program Span) : List SemanticError :=
  match program p with
  | .ok _ => []
  | .error es => es

/-- The classes of a program with their members, the table with them, and the errors of the members
that could not be entered. -/
def entries (p : Program Span) : List Registration.Entered × ClassTable × List SemanticError :=
  Registration.classList (Hierarchy.build p.classes).table (Hierarchy.build p.classes).classes

/-- The errors that the check of the member number `j` of the class number `i` finds, in any environment with
the table of the program (`memberIn_reports`). Nothing is checked of a class that is left out, nor of a member
that could not be entered. -/
def memberErrors (p : Program Span) (i j : Nat) : List SemanticError :=
  match (Hierarchy.idOf? p.classes i).bind fun id => (entries p).1.find? (·.id == id) with
  | none => []
  | some c => (c.members[j]?.map fun m => (enteredMember (entries p).2.1.layout c.id m).2).getD []

/-- The errors stage by stage. -/
theorem errors_eq (p : Program Span) : errors p = (Hierarchy.build p.classes).errors ++
    (entries p).2.2 ++ (entries p).1.flatMap fun c => (classDecl (entries p).2.1.layout c).2 := by
  simp only [errors, program_eq, entries]
  generalize Registration.classList (Hierarchy.build p.classes).table
    (Hierarchy.build p.classes).classes = listed
  obtain ⟨entered, t, es⟩ := listed
  simp only [List.flatMap_map]
  split
  · next h => split at h <;> simp_all
  · next h => split at h <;> simp_all

end Check

/-! ## Stages before the members -/

namespace Hierarchy

theorem declareAll_append (t : ClassTable) (ds ds' : List (ClassDecl Span)) :
    declareAll t (ds ++ ds') =
      ⟨(declareAll t ds).classes ++ (declareAll (declareAll t ds).table ds').classes,
        (declareAll (declareAll t ds).table ds').table,
        (declareAll t ds).errors ++ (declareAll (declareAll t ds).table ds').errors⟩ := by
  induction ds generalizing t with
  | nil => rfl
  | cons d ds ih =>
    simp only [List.cons_append, declareAll]
    split <;> simp only [ih, List.cons_append]

/-- Indices are given out in ascending order. -/
theorem declareAll_size (t : ClassTable) (ds : List (ClassDecl Span)) :
    t.size ≤ (declareAll t ds).table.size ∧
      ∀ c ∈ (declareAll t ds).classes, t.size ≤ c.1 ∧ c.1 < (declareAll t ds).table.size := by
  induction ds generalizing t with
  | nil => simp [declareAll]
  | cons d ds ih =>
    simp only [declareAll]
    split
    · next id t' h =>
      obtain ⟨rfl, hsize⟩ : id = t.size ∧ t'.size = t.size + 1 := by
        unfold ClassTable.declare at h
        split at h <;> cases h
        exact ⟨rfl, by simp [ClassTable.size]⟩
      obtain ⟨hle, hids⟩ := ih t'
      have hlt : t.size < (declareAll t' ds).table.size := by omega
      refine ⟨Nat.le_of_lt hlt, List.forall_mem_cons.mpr ⟨⟨Nat.le_refl _, hlt⟩, fun c hc => ?_⟩⟩
      exact ⟨Nat.le_trans (by omega) (hids c hc).1, (hids c hc).2⟩
    · exact ih t

/-- Linking reads the written parents and nothing else of the declarations. -/
theorem linkAll_congr {t : ClassTable} {cs cs' : List (TypeId × ClassDecl Span)}
    (h : cs.map (fun c => (c.1, c.2.parent)) = cs'.map fun c => (c.1, c.2.parent)) :
    linkAll t cs = linkAll t cs' := by
  induction cs generalizing t cs' with
  | nil =>
    rw [List.map_nil, eq_comm, List.map_eq_nil_iff] at h
    rw [h]
  | cons c cs ih =>
    match cs' with
    | c' :: cs' =>
      obtain ⟨id, d⟩ := c
      obtain ⟨id', d'⟩ := c'
      simp only [List.map_cons, List.cons.injEq, Prod.mk.injEq] at h
      obtain ⟨⟨rfl, hparent⟩, hrest⟩ := h
      have hsame : parentOf t d = parentOf t d' := by simp only [parentOf, hparent]
      simp only [linkAll, hsame, ih hrest]

section

variable (pre post : List (ClassDecl Span)) (name : Ident) (parent : Option Ident)

/-- The declarations around one, whatever its members: the index that it gets is one of its own. -/
theorem declareAll_around :
    ∃ (o : Option TypeId) (left right : List (TypeId × ClassDecl Span)) (t : ClassTable)
      (es : List SemanticError), (∀ id ∈ o, ∀ c ∈ left ++ right, c.1 ≠ id) ∧
      ∀ ms s, idOf? (pre ++ ⟨name, parent, ms, s⟩ :: post) pre.length = o ∧
        declareAll .standard (pre ++ ⟨name, parent, ms, s⟩ :: post) =
          ⟨left ++ o.toList.map (·, ⟨name, parent, ms, s⟩) ++ right, t, es⟩ := by
  obtain ⟨-, hbefore⟩ := declareAll_size .standard pre
  generalize hpre : declareAll .standard pre = before at hbefore
  have hid : ∀ ms s, idOf? (pre ++ ⟨name, parent, ms, s⟩ :: post) pre.length =
      (before.table.declare name).toOption.map (·.1) := by
    intro ms s
    simp [idOf?, hpre]
  cases hdeclare : before.table.declare name with
  | error e =>
    refine ⟨none, before.classes, (declareAll before.table post).classes,
      (declareAll before.table post).table,
      before.errors ++ e :: (declareAll before.table post).errors, by simp, fun ms s =>
        ⟨by rw [hid, hdeclare]; rfl, ?_⟩⟩
    rw [declareAll_append, hpre]
    simp only [declareAll, hdeclare, Option.toList_none, List.map_nil, List.append_nil]
  | ok declared =>
    obtain ⟨id, t⟩ := declared
    obtain ⟨rfl, hsize⟩ : id = before.table.size ∧ t.size = before.table.size + 1 := by
      unfold ClassTable.declare at hdeclare
      split at hdeclare <;> cases hdeclare
      exact ⟨rfl, by simp [ClassTable.size]⟩
    obtain ⟨-, hafter⟩ := declareAll_size t post
    refine ⟨some before.table.size, before.classes, (declareAll t post).classes,
      (declareAll t post).table, before.errors ++ (declareAll t post).errors, ?_,
      fun ms s => ⟨by rw [hid, hdeclare]; rfl, ?_⟩⟩
    · rintro id ⟨⟩ c hc
      rcases List.mem_append.mp hc with hc | hc
      · exact Nat.ne_of_lt (hbefore c hc).2
      · exact Nat.ne_of_gt (Nat.lt_of_lt_of_le (by omega) (hafter c hc).1)
    · rw [declareAll_append, hpre]
      simp only [declareAll, hdeclare, Option.toList_some, List.map_cons, List.map_nil,
        List.append_assoc, List.singleton_append]

/-- The hierarchy around one declaration, whatever its members: the class has a place of its own in it,
unless it is left out. -/
theorem build_around :
    ∃ (o : Option TypeId) (left right : List (TypeId × ClassDecl Span)) (t : ClassTable)
      (es : List SemanticError), ∀ ms s,
        build (pre ++ ⟨name, parent, ms, s⟩ :: post) =
          ⟨left ++ o.toList.map (·, ⟨name, parent, ms, s⟩) ++ right, t, es⟩ ∧
        (∀ id ∈ o, idOf? (pre ++ ⟨name, parent, ms, s⟩ :: post) pre.length = some id) ∧
        ∀ id ∈ idOf? (pre ++ ⟨name, parent, ms, s⟩ :: post) pre.length,
          ∀ c ∈ left ++ right, c.1 ≠ id := by
  obtain ⟨o, left, right, t, es, hapart, hall⟩ := declareAll_around pre post name parent
  -- Linking and the search for cycles do not see the members.
  obtain ⟨linked, hlink⟩ : ∃ linked, ∀ ms s,
      linkAll t (left ++ o.toList.map (·, ⟨name, parent, ms, s⟩) ++ right) = linked :=
    ⟨linkAll t (left ++ o.toList.map (·, ⟨name, parent, [], .none⟩) ++ right), fun ms s =>
      linkAll_congr (by simp [Function.comp_def])⟩
  obtain ⟨ids, hids⟩ : ∃ ids : List TypeId, ∀ ms s,
      (left ++ o.toList.map (·, ClassDecl.mk name parent ms s) ++ right).map
        (fun c : TypeId × ClassDecl Span => c.1) = ids :=
    ⟨left.map (·.1) ++ o.toList ++ right.map (·.1), fun ms s => by simp [Function.comp_def]⟩
  generalize hcut : cutCycles linked.1 ids = cut
  let keep (id : TypeId) : Bool := !(leftOut cut.1 (linked.2.map (·.1)) ids).contains id
  refine ⟨o.filter keep, left.filter fun c => keep c.1, right.filter fun c => keep c.1, cut.1,
    es ++ linked.2.map (·.2) ++ cut.2, fun ms s => ?_⟩
  obtain ⟨hid, hdeclared⟩ := hall ms s
  refine ⟨?_, fun id hmem => ?_, fun id hmem c hc => ?_⟩
  · simp only [build, hdeclared, hlink, hids, hcut, List.filter_append]
    cases o with
    | none => rfl
    | some id =>
      have hkeep : Option.filter keep (some id) = if keep id then some id else none := rfl
      simp only [Option.toList_some, List.map_cons, List.map_nil, List.filter_cons, List.filter_nil,
        hkeep]
      split <;> rfl
  · rw [hid]
    exact (Option.filter_eq_some_iff.mp hmem).1
  · rw [hid] at hmem
    refine hapart id hmem c ?_
    rcases List.mem_append.mp hc with hc | hc
    · exact List.mem_append_left _ (List.mem_filter.mp hc).1
    · exact List.mem_append_right _ (List.mem_filter.mp hc).1

end

end Hierarchy

namespace Registration

/-- Entering a member reads nothing of what is inside it. -/
theorem member_hollow (t : ClassTable) (id : TypeId) (m : MemberDecl Span) :
    member t id m = member t id m.hollow := by
  cases m <;> rfl

theorem memberList_append (t : ClassTable) (id : TypeId) (ms ms' : List (MemberDecl Span)) :
    memberList t id (ms ++ ms') =
      ⟨(memberList t id ms).members ++ (memberList (memberList t id ms).table id ms').members,
        (memberList (memberList t id ms).table id ms').table,
        (memberList t id ms).errors ++ (memberList (memberList t id ms).table id ms').errors⟩ := by
  induction ms generalizing t with
  | nil => rfl
  | cons m ms ih =>
    simp only [List.cons_append, memberList]
    split <;> simp only [ih, List.cons_append]

theorem memberList_length (t : ClassTable) (id : TypeId) (ms : List (MemberDecl Span)) :
    (memberList t id ms).members.length = ms.length := by
  induction ms generalizing t with
  | nil => rfl
  | cons m ms ih =>
    simp only [memberList]
    split <;> simp only [List.length_cons, ih]

/-- The members around one, whatever is inside it. -/
theorem memberList_around (t : ClassTable) (id : TypeId) (before after : List (MemberDecl Span))
    (h : MemberDecl Span) :
    ∃ (ok : Bool) (left right : List (MemberDecl Span × Bool)) (t' : ClassTable)
      (es : List SemanticError), left.length = before.length ∧ ∀ m, m.hollow = h →
        memberList t id (before ++ m :: after) = ⟨left ++ (m, ok) :: right, t', es⟩ := by
  generalize hbefore : memberList t id before = b
  have hlength : b.members.length = before.length := hbefore ▸ memberList_length t id before
  cases hmember : member b.table id h with
  | error e =>
    refine ⟨false, b.members, (memberList b.table id after).members,
      (memberList b.table id after).table, b.errors ++ e :: (memberList b.table id after).errors,
      hlength, ?_⟩
    rintro m rfl
    rw [← member_hollow] at hmember
    rw [memberList_append, hbefore]
    simp only [memberList, hmember]
  | ok t' =>
    refine ⟨true, b.members, (memberList t' id after).members,
      (memberList t' id after).table, b.errors ++ (memberList t' id after).errors, hlength, ?_⟩
    rintro m rfl
    rw [← member_hollow] at hmember
    rw [memberList_append, hbefore]
    simp only [memberList, hmember]

/-- Entering a class around one member, whatever is inside the member. -/
theorem classDecl_around (t : ClassTable) (id : TypeId) (name : Ident) (parent : Option Ident)
    (before after : List (MemberDecl Span)) (s : Span) (h : MemberDecl Span) :
    ∃ (ok implicit : Bool) (left right : List (MemberDecl Span × Bool)) (t' : ClassTable)
      (es : List SemanticError), left.length = before.length ∧ ∀ m, m.hollow = h →
        classDecl t id ⟨name, parent, before ++ m :: after, s⟩ =
          (⟨id, ⟨name, parent, before ++ m :: after, s⟩, left ++ (m, ok) :: right, implicit⟩, t', es) := by
  obtain ⟨ok, left, right, t', es, hlength, hlist⟩ := memberList_around t id before after h
  obtain ⟨isEmpty, hempty⟩ : ∃ isEmpty, ∀ m, m.hollow = h →
      (ClassDecl.mk name parent (before ++ m :: after) s).constructors.isEmpty = isEmpty := by
    refine ⟨(ClassDecl.mk name parent (before ++ h :: after) s).constructors.isEmpty, ?_⟩
    rintro m rfl
    rw [Bool.eq_iff_iff, List.isEmpty_iff, List.isEmpty_iff]
    cases m <;> simp [ClassDecl.constructors, MemberDecl.hollow]
  cases isEmpty with
  | false =>
    refine ⟨ok, false, left, right, t', es, hlength, fun m hm => ?_⟩
    simp only [classDecl, hlist m hm, hempty m hm, Bool.false_eq_true, ↓reduceIte]
  | true =>
    cases hadd : t'.addMethod id ⟨.constructor, .everyone, [], .unit, false, name.span⟩ with
    | error e =>
      refine ⟨ok, false, left, right, t', es ++ [e], hlength, fun m hm => ?_⟩
      simp only [classDecl, hlist m hm, hempty m hm, ↓reduceIte, implicitConstructor, hadd]
    | ok t'' =>
      refine ⟨ok, true, left, right, t'', es, hlength, fun m hm => ?_⟩
      simp only [classDecl, hlist m hm, hempty m hm, ↓reduceIte, implicitConstructor, hadd]

theorem classList_append (t : ClassTable) (cs cs' : List (TypeId × ClassDecl Span)) :
    classList t (cs ++ cs') =
      ((classList t cs).1 ++ (classList (classList t cs).2.1 cs').1,
        (classList (classList t cs).2.1 cs').2.1,
        (classList t cs).2.2 ++ (classList (classList t cs).2.1 cs').2.2) := by
  induction cs generalizing t with
  | nil => rfl
  | cons c cs ih => simp only [List.cons_append, classList, ih, List.append_assoc]

theorem classDecl_id (t : ClassTable) (id : TypeId) (d : ClassDecl Span) :
    (classDecl t id d).1.id = id := by
  simp only [classDecl]
  split
  · split <;> rfl
  · rfl

theorem classList_ids (t : ClassTable) (cs : List (TypeId × ClassDecl Span)) :
    (classList t cs).1.map (·.id) = cs.map (·.1) := by
  induction cs generalizing t with
  | nil => rfl
  | cons c cs ih => simp only [classList, List.map_cons, ih, classDecl_id]

end Registration

/-! ## Isolation -/

namespace Check

/-- The errors of a class around one of its members. -/
theorem classDecl_errors (t : ClassTable) (id : TypeId) (d : ClassDecl Span)
    (left right : List (MemberDecl Span × Bool)) (m : MemberDecl Span × Bool) (implicit : Bool) :
    (classDecl t ⟨id, d, left ++ m :: right, implicit⟩).2 =
      left.flatMap (fun m => (enteredMember t id m).2) ++ (enteredMember t id m).2 ++
        (right.flatMap (fun m => (enteredMember t id m).2) ++
          if implicit then implicitConstructor t id d.name.span else []) := by
  simp only [classDecl_eq, List.map_append, List.map_cons, List.flatMap_append, List.flatMap_cons,
    List.flatMap_map, List.append_assoc]

theorem find_entered {left right : List Registration.Entered} {id : TypeId} {d : ClassDecl Span}
    {ms : List (MemberDecl Span × Bool)} {implicit : Bool} (h : ∀ c ∈ left, c.id ≠ id) :
    (left ++ ⟨id, d, ms, implicit⟩ :: right).find? (·.id == id) = some ⟨id, d, ms, implicit⟩ := by
  rw [List.find?_append, List.find?_eq_none.mpr (by simpa using h)]
  simp

/-- What is inside a member is checked apart from everything else: whatever it is, the errors before
those of the member and the errors behind them are the same. -/
theorem errors_around (pre post : List (ClassDecl Span)) (name : Ident) (parent : Option Ident)
    (before after : List (MemberDecl Span)) (s s' : Span) (h : MemberDecl Span) :
    ∃ A B, ∀ m, m.hollow = h →
      errors ⟨pre ++ ⟨name, parent, before ++ m :: after, s⟩ :: post, s'⟩ =
        A ++ memberErrors ⟨pre ++ ⟨name, parent, before ++ m :: after, s⟩ :: post, s'⟩
          pre.length before.length ++ B := by
  obtain ⟨o, left, right, t, es, hbuild⟩ := Hierarchy.build_around pre post name parent
  cases o with
  | none =>
    -- The class is left out.
    simp only [Option.toList_none, List.map_nil, List.append_nil] at hbuild
    refine ⟨es ++ (Registration.classList t (left ++ right)).2.2 ++
      (Registration.classList t (left ++ right)).1.flatMap fun c =>
        (classDecl (Registration.classList t (left ++ right)).2.1.layout c).2, [], fun m hm => ?_⟩
    obtain ⟨hb, -, hapart⟩ := hbuild (before ++ m :: after) s
    have hnone : memberErrors ⟨pre ++ ⟨name, parent, before ++ m :: after, s⟩ :: post, s'⟩
        pre.length before.length = [] := by
      simp only [memberErrors, entries, hb]
      cases hid : Hierarchy.idOf? (pre ++ ⟨name, parent, before ++ m :: after, s⟩ :: post)
          pre.length with
      | none => rfl
      | some id =>
        have hfind : (Registration.classList t (left ++ right)).1.find? (·.id == id) = none := by
          refine List.find?_eq_none.mpr fun c hc => ?_
          have hmem := List.mem_map_of_mem (f := (·.id)) hc
          rw [Registration.classList_ids] at hmem
          obtain ⟨c', hc', heq⟩ := List.mem_map.mp hmem
          simpa [← heq] using hapart id hid c' hc'
        rw [Option.bind_some, hfind]
    rw [errors_eq, hnone]
    simp only [entries, hb, List.append_nil]
  | some id =>
    generalize hbefore : Registration.classList t left = listed
    obtain ⟨ok, implicit, members, members', t', es', hlength, hclass⟩ :=
      Registration.classDecl_around listed.2.1 id name parent before after s h
    generalize hafter : Registration.classList t' right = listed'
    have hentries : ∀ m, m.hollow = h →
        entries ⟨pre ++ ⟨name, parent, before ++ m :: after, s⟩ :: post, s'⟩ =
          (listed.1 ++ ⟨id, ⟨name, parent, before ++ m :: after, s⟩, members ++ (m, ok) :: members',
            implicit⟩ :: listed'.1, listed'.2.1, listed.2.2 ++ (es' ++ listed'.2.2)) := by
      intro m hm
      obtain ⟨hb, -, -⟩ := hbuild (before ++ m :: after) s
      simp only [entries, hb, Option.toList_some, List.map_cons, List.map_nil, List.append_assoc,
        List.singleton_append, Registration.classList_append, hbefore, Registration.classList,
        hclass m hm, hafter]
    refine ⟨es ++ (listed.2.2 ++ (es' ++ listed'.2.2)) ++
      (listed.1.flatMap (fun c => (classDecl listed'.2.1.layout c).2) ++
        members.flatMap fun m => (enteredMember listed'.2.1.layout id m).2),
      members'.flatMap (fun m => (enteredMember listed'.2.1.layout id m).2) ++
        (if implicit then implicitConstructor listed'.2.1.layout id name.span else []) ++
        listed'.1.flatMap fun c => (classDecl listed'.2.1.layout c).2, fun m hm => ?_⟩
    obtain ⟨hb, hid, hapart⟩ := hbuild (before ++ m :: after) s
    have hmember : memberErrors ⟨pre ++ ⟨name, parent, before ++ m :: after, s⟩ :: post, s'⟩
        pre.length before.length = (enteredMember listed'.2.1.layout id (m, ok)).2 := by
      have hleft : ∀ c ∈ listed.1, c.id ≠ id := by
        intro c hc
        have hmem := List.mem_map_of_mem (f := (·.id)) hc
        rw [← hbefore, Registration.classList_ids] at hmem
        obtain ⟨c', hc', heq⟩ := List.mem_map.mp hmem
        exact heq ▸ hapart id (hid id rfl) c' (List.mem_append_left _ hc')
      simp only [memberErrors, hid id rfl, Option.bind_some, hentries m hm, find_entered hleft]
      rw [← hlength, List.getElem?_append_right (Nat.le_refl _), Nat.sub_self]
      rfl
    rw [errors_eq, hmember, hentries m hm, hb]
    simp only [List.flatMap_append, List.flatMap_cons, classDecl_errors, List.append_assoc]

/-- Members are isolated from each other: if two programs differ inside one member, their errors are
those of the member between the same other errors. -/
theorem members_isolated {p q : Program Span} {i j : Nat} (h : p.DifferInside q i j) :
    ∃ A B, errors p = A ++ memberErrors p i j ++ B ∧ errors q = A ++ memberErrors q i j ++ B := by
  obtain ⟨hsame⟩ := h
  obtain ⟨A, B, hall⟩ := errors_around _ _ _ _ _ _ _ _ _
  exact ⟨A, B, hall _ hsame, hall _ rfl⟩

/-- A class with two members that are wrong and one between them that is. -/
def blunders (value : Expr Span) : Program Span :=
  let name (x : String) : Ident := ⟨x, .none⟩
  let field (x : String) (value : Expr Span) : MemberDecl Span :=
    .field ⟨.everyone, name x, .named (name "boolean"), some value, .none⟩
  ⟨[⟨name "Blunders", none, [
    field "first" (.name "unbound" .none), field "middle" value, field "last" (.null .none)], .none⟩],
    .none⟩

/-- What is wrong with the member in the middle stands between the errors of the others. -/
theorem blunders_isolated :
    errors (blunders (.string "no" .none)) =
      [⟨.undefinedVariable "unbound", .none⟩, ⟨.typeMismatch "boolean" "string" none, .none⟩,
        ⟨.notAnOption "boolean", .none⟩] ∧
    errors (blunders (.boolean true .none)) =
      [⟨.undefinedVariable "unbound", .none⟩, ⟨.notAnOption "boolean", .none⟩] ∧
    ∃ A B, errors (blunders (.string "no" .none)) =
        A ++ memberErrors (blunders (.string "no" .none)) 0 1 ++ B ∧
      errors (blunders (.boolean true .none)) =
        A ++ memberErrors (blunders (.boolean true .none)) 0 1 ++ B := by
  refine ⟨by decide +kernel, by decide +kernel, members_isolated ?_⟩
  exact @Program.DifferInside.intro _ [] [] _ _ [_] [_] _ _ _ _ rfl

end Check

end ClassLang
