import ClassLang.Proofs.Mirror
import ClassLang.Proofs.Operands
import ClassLang.Proofs.ReturnFlow

/-!
# The order of a construction

What is done for a new object, told as a list of events: its fields get their initial values, and each class
of the chain enters its constructor, delegates to that of its parent, runs the body and leaves. Two lists of
events are defined here, and they are shown to be the same elsewhere:

* `Analysis.trace` is what a machine does for one object. Above the frame that is watched, it keeps in mind
  what every frame is there for (`Role`), and it notes an event where a frame that is there for the object
  comes to an index that stands for one (`Analysis.events`).
* `Analysis.initialization` and `Analysis.construction` tell from the classes alone what has to be done: the
  initial values of the ancestors' fields come first, in the order of the text, and the constructors are
  entered from the class upwards, while their bodies run from the topmost class downwards.

A class is told by its position in the program. Built-in classes have neither fields with initial values nor
constructors with code, so they do not occur.
-/

namespace ClassLang

/-! ## Events -/

/-- Something that is done for a new object. -/
inductive BuildEvent where
  /-- The evaluation of the initial value of a field starts. -/
  | begins (cls : Nat) (field : String)
  /-- The initial value of a field is stored. -/
  | stores (cls : Nat) (field : String)
  /-- A constructor starts, with the evaluation of the base arguments. -/
  | enters (cls : Nat)
  /-- The base arguments are there, and the parent's constructor is called. -/
  | delegates (cls : Nat)
  /-- The parent's constructor is done, and the body of the constructor starts. -/
  | runs (cls : Nat)
  /-- The body of the constructor is done. -/
  | leaves (cls : Nat)
deriving DecidableEq, Repr

/-- The class whose part of an object is concerned. -/
def BuildEvent.cls : BuildEvent → Nat
  | .begins cls _ | .stores cls _ | .enters cls | .delegates cls | .runs cls | .leaves cls => cls

/-- What a frame is there for: to run the field initializer or the constructor of a class on an object, or
something else. -/
inductive Role where
  | other
  | initializer (cls : Nat) (object : Value)
  | constructor (cls : Nat) (object : Value)

namespace Role

/-- The role of a frame that runs a member of a class on a receiver. -/
def of : MemberKey → Nat → Value → Role
  | .initializer, cls, object => .initializer cls object
  | .constructor, cls, object => .constructor cls object
  | _, _, _ => .other

/-- The frame is there for the object at an address. -/
def serves (address : Nat) : Role → Bool
  | .initializer _ (.object o) | .constructor _ (.object o) => o == address
  | _ => false

/-- The events of a frame that returns. -/
def leaving : Role → List BuildEvent
  | .constructor cls _ => [.leaves cls]
  | _ => []

variable {key : MemberKey} {cls address : Nat} {object : Value}

theorem serves_of : (of key cls object).serves address = true ↔
    key.isInherited = false ∧ object = .object address := by
  cases key <;> cases object <;> simp [of, serves, MemberKey.isInherited]

theorem of_inherited (h : key.isInherited = true) : of key cls object = .other := by
  cases key <;> first | rfl | cases h

end Role

/-- The role of the frame that an instruction starts, with a receiver. -/
def Image.roleOf (image : Image) (i : Instr) (receiver : Value) : Role :=
  (do
    let (owner, _) ← image.resolve? (← i.construct?) (← image.callee? i)
    let key ← image.member? (← image.callee? i)
    return Role.of key (owner - Builtin.count) receiver : Option Role).getD .other

/-- The index of the call of the parent's constructor in the code of the constructor of a class. The code in
front of it loads the receiver and computes the base arguments. -/
def ClassDecl.delegation {ν : Type} (d : ClassDecl ν) : Nat := 1 + Expr.widths d.baseArguments

/-- The indices in the code of the fields' initial values, which starts at an index, where the evaluation of
a value starts, and where the instruction stands that stores it. -/
def fieldMarks {ν : Type} (cls start : Nat) : List (FieldDecl ν) → List (Nat × BuildEvent)
  | [] => []
  | d :: ds =>
    match d.initializer with
    | none => fieldMarks cls start ds
    | some e => (start, .begins cls d.name.name) :: (start + e.width + 1, .stores cls d.name.name) ::
        fieldMarks cls (start + e.width + 3) ds

namespace Analysis

variable (a : Analysis)

/-- The indices at which a frame with a role stands for an event. -/
def marks : Role → List (Nat × BuildEvent)
  | .other => []
  | .initializer cls _ => (a.program.classes[cls]?.map fun d => fieldMarks cls 3 d.fields).getD []
  | .constructor cls _ => (a.program.classes[cls]?.map fun d => [(0, .enters cls),
      (d.delegation, .delegates cls), (d.delegation + 1, .runs cls)]).getD []

/-- The events of a frame with a role, in front of the instruction at an index. -/
def events (role : Role) (code : Array Instr) (index : Nat) : List BuildEvent :=
  ((a.marks role).filter (·.1 = index)).map (·.2) ++
    if code[index]? = some .return then role.leaving else []

end Analysis

/-! ## What a machine does -/

/-- The roles of the frames behind a step. -/
def Machine.rolesAfter (image : Image) (m m' : Machine) (roles : List Role) : List Role :=
  if m.callers.length < m'.callers.length then
    (m.frame.code[m.frame.ip]?.elim .other (image.roleOf · m'.frame.receiver)) :: roles
  else if m'.callers.length < m.callers.length then roles.tail
  else roles

namespace Analysis

/-- The events of a machine for the object at an address, with the roles of the frames above the one that is
watched. -/
def log (a : Analysis) (address : Nat) (m : Machine) : List Role → List BuildEvent
  | role :: _ => if role.serves address then a.events role m.frame.code m.frame.ip else []
  | [] => []

/-- What a machine does for the object at an address in a number of steps. -/
def trace (a : Analysis) (image : Image) (address : Nat) : Nat → Machine → List Role → List BuildEvent
  | 0, _, _ => []
  | n + 1, m, roles => a.log address m roles ++
    match m.step image with
    | .next m' => trace a image address n m' (m.rolesAfter image m' roles)
    | _ => []

/-! ## What has to be done -/

variable (a : Analysis)

/-- The positions of a class and its ancestors in the program, nearest first. -/
def lineage (id : Nat) : List Nat :=
  ((a.classes.ancestors id).filter (TypeId.first ≤ ·)).map (· - TypeId.first)

/-- The events of the fields of a class. -/
def fieldEvents (cls : Nat) : List BuildEvent :=
  match a.program.classes[cls]? with
  | none => []
  | some d => d.fields.flatMap fun f =>
    if f.initializer.isSome then [.begins cls f.name.name, .stores cls f.name.name] else []

/-- The fields of a new object get their initial values, those of the ancestors first. -/
def initialization (id : Nat) : List BuildEvent := (a.lineage id).reverse.flatMap a.fieldEvents

/-- The constructors of a class and its ancestors are entered upwards, and their bodies run downwards. -/
def construction (id : Nat) : List BuildEvent :=
  ((a.lineage id).flatMap fun cls => [.enters cls, .delegates cls]) ++
    (a.lineage id).reverse.flatMap fun cls => [.runs cls, .leaves cls]

end Analysis

section

variable {a : Analysis} (W : WellTyped a)

include W

theorem WellTyped.lineage_builtin {id : Nat} (hid : id < TypeId.first) : a.lineage id = [] := by
  rw [Analysis.lineage, List.map_eq_nil_iff, List.filter_eq_nil_iff]
  intro u hu
  rcases W.builtin_subclass hid (ClassTable.isSubclass_iff.mpr hu) with rfl | rfl
  · simpa using hid
  · decide

theorem WellTyped.lineage_user {i p : Nat} (hp : a.classes.parent? (TypeId.first + i) = some p) :
    a.lineage (TypeId.first + i) = i :: a.lineage p := by
  rw [Analysis.lineage, ClassTable.ancestors_link W.rooted hp, List.filter_cons_of_pos (by simp)]
  simp [Analysis.lineage]

theorem WellTyped.initialization_builtin {id : Nat} (hid : id < TypeId.first) :
    a.initialization id = [] := by
  rw [Analysis.initialization, W.lineage_builtin hid]
  rfl

theorem WellTyped.initialization_user {i p : Nat} (hp : a.classes.parent? (TypeId.first + i) = some p) :
    a.initialization (TypeId.first + i) = a.initialization p ++ a.fieldEvents i := by
  simp [Analysis.initialization, W.lineage_user hp]

theorem WellTyped.construction_builtin {id : Nat} (hid : id < TypeId.first) :
    a.construction id = [] := by
  rw [Analysis.construction, W.lineage_builtin hid]
  rfl

theorem WellTyped.construction_user {i p : Nat} (hp : a.classes.parent? (TypeId.first + i) = some p) :
    a.construction (TypeId.first + i) =
      BuildEvent.enters i :: .delegates i :: a.construction p ++ [BuildEvent.runs i, .leaves i] := by
  simp [Analysis.construction, W.lineage_user hp]

theorem WellTyped.lineage_nodup {id : Nat} (hid : id < a.classes.size) : (a.lineage id).Nodup := by
  refine ((W.rooted.ancestors_chain hid).nodup.filter _).map_on fun c hc c' hc' heq => ?_
  have hge := of_decide_eq_true (List.mem_filter.mp hc).2
  have hge' := of_decide_eq_true (List.mem_filter.mp hc').2
  omega

omit W in
/-- What is done for the classes of a list, each of which has its own events. -/
theorem BuildEvent.nodup_flatMap {cs : List Nat} {f : Nat → List BuildEvent} (hcs : cs.Nodup)
    (hnodup : ∀ cls, (f cls).Nodup) (hown : ∀ cls, ∀ event ∈ f cls, event.cls = cls) :
    (cs.flatMap f).Nodup :=
  List.nodup_flatMap.mpr ⟨fun cls _ => hnodup cls, hcs.imp fun hne _ h h' =>
    hne ((hown _ _ h).symm.trans (hown _ _ h'))⟩

theorem WellTyped.fieldEvents_nodup (cls : Nat) : (a.fieldEvents cls).Nodup := by
  rw [Analysis.fieldEvents]
  split
  · exact .nil
  · next d hd =>
    obtain ⟨_, _, ht⟩ := W.each cls d hd
    -- The fields of a class have different names.
    have hnames : (d.fields.map (·.name.name)).Nodup := by
      have hnodup := ht.registered.fieldsNodup
      have heq : d.fields.map (·.name.name) = d.members.filterMap (·.fieldName?) := by
        rw [ClassDecl.fields, List.map_filterMap]
        exact List.filterMap_congr fun m _ => by cases m <;> rfl
      rwa [heq, ← ht.registered.fields]
    refine List.nodup_flatMap.mpr ⟨fun f _ => ?_, (List.pairwise_map.mp hnames).imp fun hne event h h' => ?_⟩
    · split <;> simp
    · simp only [List.mem_ite_nil_right, List.mem_cons, List.not_mem_nil, or_false] at h h'
      rcases h with ⟨_, rfl | rfl⟩
      · exact hne (by simpa using h'.2)
      · exact hne (by simpa using h'.2)

omit W in
theorem mem_fieldEvents {cls : Nat} {event : BuildEvent} (h : event ∈ a.fieldEvents cls) :
    ∃ field, event = .begins cls field ∨ event = .stores cls field := by
  rw [Analysis.fieldEvents] at h
  split at h
  · cases h
  · simp only [List.mem_flatMap, List.mem_ite_nil_right, List.mem_cons, List.not_mem_nil, or_false] at h
    obtain ⟨f, _, _, h⟩ := h
    exact ⟨_, h⟩

/-- Nothing is done twice for an object. -/
theorem WellTyped.building_nodup {id : Nat} (hid : id < a.classes.size) :
    (a.initialization id ++ a.construction id).Nodup := by
  have hup := W.lineage_nodup hid
  have hdown := List.nodup_reverse.mpr hup
  have hfields : (a.initialization id).Nodup :=
    BuildEvent.nodup_flatMap hdown W.fieldEvents_nodup fun cls event h => by
      obtain ⟨_, rfl | rfl⟩ := mem_fieldEvents h <;> rfl
  have hentries := BuildEvent.nodup_flatMap (f := fun cls => [.enters cls, .delegates cls]) hup (by simp)
    (by simp [BuildEvent.cls])
  have hbodies := BuildEvent.nodup_flatMap (f := fun cls => [.runs cls, .leaves cls]) hdown (by simp)
    (by simp [BuildEvent.cls])
  refine List.nodup_append'.mpr ⟨hfields, List.nodup_append'.mpr ⟨hentries, hbodies, ?_⟩, ?_⟩
  · intro event h h'
    obtain ⟨_, _, h⟩ := List.mem_flatMap.mp h
    obtain ⟨_, _, h'⟩ := List.mem_flatMap.mp h'
    simp only [List.mem_cons, List.not_mem_nil, or_false] at h h'
    rcases h with rfl | rfl <;> simp at h'
  · intro event h h'
    obtain ⟨cls, _, h⟩ := List.mem_flatMap.mp h
    obtain ⟨_, rfl | rfl⟩ := mem_fieldEvents h <;> simp [Analysis.construction] at h'

end

/-! ## Marks -/

section

variable {ν : Type} {cls start : Nat}

theorem fieldMarks_events (ds : List (FieldDecl ν)) : (fieldMarks cls start ds).map (·.2) =
    ds.flatMap fun f =>
      if f.initializer.isSome then [.begins cls f.name.name, .stores cls f.name.name] else [] := by
  induction ds generalizing start with
  | nil => rfl
  | cons d ds ih =>
    rw [fieldMarks, List.flatMap_cons]
    cases d.initializer with
    | none => exact ih
    | some e => simp [ih]

/-- The marks stand in the code in the order of the text. -/
theorem fieldMarks_ascending (cls start : Nat) (ds : List (FieldDecl ν)) :
    (∀ p ∈ fieldMarks cls start ds, start ≤ p.1) ∧
      (fieldMarks cls start ds).Pairwise (·.1 < ·.1) := by
  induction ds generalizing start with
  | nil => exact ⟨by simp [fieldMarks], .nil⟩
  | cons d ds ih =>
    rw [fieldMarks]
    cases d.initializer with
    | none => exact ih start
    | some e =>
      obtain ⟨hge, hpairs⟩ := ih (start + e.width + 3)
      simp only [List.forall_mem_cons, List.pairwise_cons]
      refine ⟨⟨Nat.le_refl _, by omega, fun p hp => ?_⟩, ⟨by omega, fun p hp => ?_⟩, fun p hp => ?_, hpairs⟩
      · exact Nat.le_trans (by omega) (hge p hp)
      · exact Nat.lt_of_lt_of_le (by omega) (hge p hp)
      · exact Nat.lt_of_lt_of_le (by omega) (hge p hp)

/-- The marks stand in the code. -/
theorem fieldMarks_lt {q : Pools} {t : ClassTable} {id : Nat} {ds : List (FieldDecl Typing)}
    {codes : List (List Instr)} (h : List.Forall₂ (EmitsField q t id) ds codes)
    (cls start : Nat) : ∀ p ∈ fieldMarks cls start ds, p.1 < start + codes.flatten.length := by
  induction h generalizing start with
  | nil => simp [fieldMarks]
  | @cons d code ds codes hc _ ih =>
    rw [fieldMarks, List.flatten_cons, List.length_append]
    cases hc with
    | blank hnone =>
      rw [hnone]
      simpa using ih start
    | @initial e owner f is hsome _ hc =>
      have hlen : (Instr.load 0 :: is ++ [Instr.setField f.offset, .pop]).length = e.width + 3 := by
        simp [hc.length_eq]
      rw [hsome, hlen]
      simp only [List.forall_mem_cons]
      refine ⟨by omega, by omega, fun p hp => ?_⟩
      have := ih (start + e.width + 3) p hp
      omega

/-- The marks from an index on are those at the index and those behind it. -/
theorem marks_from {α : Type} {l : List (Nat × α)} (h : l.Pairwise (·.1 < ·.1)) (index : Nat) :
    l.filter (index ≤ ·.1) = l.filter (·.1 = index) ++ l.filter (index + 1 ≤ ·.1) := by
  induction l with
  | nil => rfl
  | cons x l ih =>
    obtain ⟨hx, hl⟩ := List.pairwise_cons.mp h
    rcases Nat.lt_trichotomy x.1 index with hlt | heq | hgt
    · rw [List.filter_cons_of_neg (by simpa using hlt), List.filter_cons_of_neg (by simp; omega),
        List.filter_cons_of_neg (by simp; omega)]
      exact ih hl
    · have hnone : l.filter (·.1 = index) = [] :=
        List.filter_eq_nil_iff.mpr fun y hy => by
          have := hx y hy
          simp
          omega
      have hrest := ih hl
      rw [hnone, List.nil_append] at hrest
      rw [List.filter_cons_of_pos (by simp; omega), List.filter_cons_of_pos (by simpa using heq),
        List.filter_cons_of_neg (by simp; omega), hnone, hrest]
      rfl
    · have hnone : l.filter (·.1 = index) = [] :=
        List.filter_eq_nil_iff.mpr fun y hy => by
          have := hx y hy
          simp
          omega
      have hrest := ih hl
      rw [hnone, List.nil_append] at hrest
      rw [List.filter_cons_of_pos (by simp; omega), List.filter_cons_of_neg (by simp; omega),
        List.filter_cons_of_pos (by simp; omega), hnone, hrest]
      rfl

end

/-! ## What is left to do -/

namespace Analysis

variable (a : Analysis)

/-- What the member of a class that builds an object has to do, its ancestors' among it. -/
def script : MemberKey → Nat → List BuildEvent
  | .initializer, id => a.initialization id
  | .constructor, id => a.construction id
  | _, _ => []

/-- What the parent's member has to do. -/
def parentScript (key : MemberKey) (cls : Nat) : List BuildEvent :=
  (a.classes.parent? (TypeId.first + cls)).elim [] (a.script key)

/-- The index of the call of the parent's member in the code of a member that builds an object. -/
def base : Role → Nat
  | .constructor cls _ => a.program.classes[cls]?.elim 0 ClassDecl.delegation
  | _ => 1

/-- What a frame with a role has still to do, in front of the instruction at an index. -/
def rest (role : Role) (index : Nat) : List BuildEvent :=
  match role with
  | .other => []
  | .initializer cls _ => (if index ≤ a.base role then a.parentScript .initializer cls else []) ++
      ((a.marks role).filter (index ≤ ·.1)).map (·.2)
  | .constructor cls _ => (if index = 0 then [.enters cls] else []) ++
      (if index ≤ a.base role then .delegates cls :: a.parentScript .constructor cls else []) ++
      (if index ≤ a.base role + 1 then [.runs cls] else []) ++ [.leaves cls]

end Analysis

section

variable {a : Analysis} {image : Image} {cls i : Nat} {object : Value} {d : ClassDecl Typing}
  {key : MemberKey} {code : Array Instr}

theorem WellTyped.script_builtin (W : WellTyped a) {id : Nat} (hid : id < TypeId.first) :
    a.script key id = [] := by
  cases key with
  | initializer => exact W.initialization_builtin hid
  | constructor => exact W.construction_builtin hid
  | _ => rfl

/-- A frame that starts has everything to do. -/
theorem rest_zero (W : WellTyped a) (hd : a.program.classes[cls]? = some d) :
    a.rest (.of key cls object) 0 = a.script key (TypeId.first + cls) := by
  obtain ⟨p, r, ht⟩ := W.each cls d hd
  cases key with
  | initializer =>
    have hall : (fieldMarks cls 3 d.fields).filter (0 ≤ ·.1) = fieldMarks cls 3 d.fields := by simp
    have hfields : a.fieldEvents cls = (fieldMarks cls 3 d.fields).map (·.2) := by
      rw [fieldMarks_events]
      simp only [Analysis.fieldEvents, hd]
    rw [Analysis.script, W.initialization_user ht.parent_eq, hfields]
    simp [Role.of, Analysis.rest, Analysis.parentScript, ht.parent_eq, Analysis.script, Analysis.marks, hd]
  | constructor =>
    rw [Analysis.script, W.construction_user ht.parent_eq]
    simp [Role.of, Analysis.rest, Analysis.parentScript, ht.parent_eq, Analysis.script]
  | _ => rfl

theorem base_initializer : a.base (.initializer cls object) = 1 := rfl

theorem base_constructor (hd : a.program.classes[cls]? = some d) :
    a.base (.constructor cls object) = d.delegation := by
  rw [Analysis.base, hd, Option.elim_some]

theorem marks_initializer (hd : a.program.classes[cls]? = some d) (object : Value) :
    a.marks (.initializer cls object) = fieldMarks cls 3 d.fields := by
  rw [Analysis.marks, hd, Option.map_some, Option.getD_some]

theorem events_initializer : a.events (.initializer cls object) code i =
    ((a.marks (.initializer cls object)).filter (·.1 = i)).map (·.2) := by
  simp [Analysis.events, Role.leaving]

/-- A field initializer goes on, the call of the parent's apart. -/
theorem rest_initializer (hd : a.program.classes[cls]? = some d) (hi : i ≠ 1) :
    a.rest (.initializer cls object) i = a.events (.initializer cls object) code i ++
      a.rest (.initializer cls object) (i + 1) := by
  obtain ⟨hge, hpairs⟩ := fieldMarks_ascending cls 3 d.fields
  have hmarks := marks_from hpairs i
  rw [← marks_initializer hd object] at hge hmarks
  rw [events_initializer, Analysis.rest, Analysis.rest, base_initializer, hmarks, List.map_append]
  by_cases h : i = 0
  · subst h
    have hnone : (a.marks (.initializer cls object)).filter (·.1 = 0) = [] :=
      List.filter_eq_nil_iff.mpr fun p hp => by
        have := hge p hp
        simp
        omega
    rw [hnone, if_pos (Nat.zero_le _), if_pos (Nat.le_refl _)]
    rfl
  · rw [if_neg (by omega), if_neg (by omega)]
    rfl

/-- A field initializer calls that of the parent. -/
theorem rest_initializer_base (hd : a.program.classes[cls]? = some d) :
    a.rest (.initializer cls object) 1 = a.events (.initializer cls object) code 1 ++
      a.parentScript .initializer cls ++ a.rest (.initializer cls object) 2 := by
  obtain ⟨hge, hpairs⟩ := fieldMarks_ascending cls 3 d.fields
  have hmarks := marks_from hpairs 1
  have hnone : (fieldMarks cls 3 d.fields).filter (·.1 = 1) = [] :=
    List.filter_eq_nil_iff.mpr fun p hp => by
      have := hge p hp
      simp
      omega
  rw [events_initializer, Analysis.rest, Analysis.rest, base_initializer, marks_initializer hd, hmarks, hnone,
    if_pos (Nat.le_refl _), if_neg (by omega)]
  rfl

/-- Behind the last field there is nothing left to do. -/
theorem rest_initializer_end (hd : a.program.classes[cls]? = some d)
    (h : ∀ p ∈ fieldMarks cls 3 d.fields, p.1 < i) (hi : 1 < i) :
    a.rest (.initializer cls object) i = a.events (.initializer cls object) code i := by
  have hnone : ∀ f : Nat × BuildEvent → Bool, (∀ p, f p = true → i ≤ p.1) →
      (fieldMarks cls 3 d.fields).filter f = [] := fun f hf =>
    List.filter_eq_nil_iff.mpr fun p hp htrue => absurd (h p hp) (Nat.not_lt_of_le (hf p htrue))
  rw [events_initializer, Analysis.rest, base_initializer, marks_initializer hd, if_neg (by omega),
    hnone _ (by simp), hnone _ (by simp)]
  rfl

theorem events_constructor (hd : a.program.classes[cls]? = some d) :
    a.events (.constructor cls object) code i =
      (if i = 0 then [BuildEvent.enters cls] else []) ++
        (if i = d.delegation then [BuildEvent.delegates cls] else []) ++
        (if i = d.delegation + 1 then [BuildEvent.runs cls] else []) ++
        (if code[i]? = some .return then [BuildEvent.leaves cls] else []) := by
  rw [Analysis.events, Analysis.marks, hd, Role.leaving]
  refine congrArg (· ++ _) ?_
  simp only [Option.map_some, Option.getD_some, List.filter_cons, List.filter_nil, decide_eq_true_eq,
    eq_comm (b := i)]
  split <;> split <;> split <;> rfl

theorem rest_constructor (hd : a.program.classes[cls]? = some d) :
    a.rest (.constructor cls object) i = (if i = 0 then [BuildEvent.enters cls] else []) ++
      (if i ≤ d.delegation then BuildEvent.delegates cls :: a.parentScript .constructor cls else []) ++
      (if i ≤ d.delegation + 1 then [BuildEvent.runs cls] else []) ++ [BuildEvent.leaves cls] := by
  rw [Analysis.rest, base_constructor hd]

/-- A constructor goes on, the call of the parent's apart. In front of that call the code runs straight on,
and none of the code behind it leads back to it. -/
theorem rest_constructor_next (hd : a.program.classes[cls]? = some d) {j : Nat}
    (hfront : i < d.delegation → j = i + 1) (hback : d.delegation < i → d.delegation + 1 < j)
    (hi : i ≠ d.delegation) (hreturn : code[i]? ≠ some .return) :
    a.rest (.constructor cls object) i = a.events (.constructor cls object) code i ++
      a.rest (.constructor cls object) j := by
  rw [rest_constructor hd, rest_constructor hd, events_constructor hd, if_neg hreturn, if_neg hi]
  rcases Nat.lt_or_gt_of_ne hi with hlt | hgt
  · obtain rfl := hfront hlt
    have hnext : i + 1 ≤ d.delegation := hlt
    simp [hlt.le, hnext, show i ≠ d.delegation + 1 by omega, show i ≤ d.delegation + 1 by omega]
  · have hj := hback hgt
    have hpos : i ≠ 0 ∧ j ≠ 0 := by omega
    have hbehind : ¬ i ≤ d.delegation ∧ ¬ j ≤ d.delegation ∧ ¬ j ≤ d.delegation + 1 := by omega
    by_cases h : i = d.delegation + 1
    · simp [hpos, hbehind, h]
    · simp [hpos, hbehind, h, show ¬ i ≤ d.delegation + 1 by omega]

/-- A constructor calls that of the parent. -/
theorem rest_constructor_base (hd : a.program.classes[cls]? = some d)
    (hreturn : code[d.delegation]? ≠ some .return) :
    a.rest (.constructor cls object) d.delegation =
      a.events (.constructor cls object) code d.delegation ++ a.parentScript .constructor cls ++
        a.rest (.constructor cls object) (d.delegation + 1) := by
  have hpos : d.delegation ≠ 0 := Nat.ne_of_gt (Nat.add_pos_left Nat.one_pos _)
  rw [rest_constructor hd, rest_constructor hd, events_constructor hd, if_neg hreturn]
  simp [hpos]

/-- A constructor that returns has left. -/
theorem rest_constructor_end (hd : a.program.classes[cls]? = some d) (hi : d.delegation + 1 < i)
    (hreturn : code[i]? = some .return) :
    a.rest (.constructor cls object) i = a.events (.constructor cls object) code i := by
  rw [rest_constructor hd, events_constructor hd, if_pos hreturn, if_neg (by omega), if_neg (by omega),
    if_neg (by omega), if_neg (by omega), if_neg (by omega)]

end

/-! ## The code of members -/

/-- The chunk of a member of the class at a position in the program. -/
def Analysis.MemberChunk (a : Analysis) (image : Image) (cls : Nat) (key : MemberKey) (chunk : Chunk) :
    Prop :=
  ∃ d p r parent, a.program.classes[cls]? = some d ∧ ClassTyped a.classes (TypeId.first + cls) p r d ∧
    TypeId.construct? p = some parent ∧
    Implements image.pools a.classes (TypeId.first + cls) parent d key (.compiled chunk)

/-- The code of a member that builds its receiver. At `base` it calls the same member of the parent on the
receiver, and nowhere else it may build the receiver. What is left to do is done on the way. -/
structure Analysis.Plan (a : Analysis) (image : Image) (key : MemberKey) (cls : Nat) (object : Value)
    (code : Array Instr) : Prop where
  settled : image.SettledIn (some (a.base (.of key cls object))) code 0 code.size
  call : ∃ p m, a.classes.parent? (TypeId.first + cls) = some p ∧
    (∃ meth, a.classes.constructor? p = some meth) ∧
    code[a.base (.of key cls object)]? = some (.invoke (TypeId.index p) m) ∧
    image.members[m]? = some key ∧
    ∃ σ n, image.shape? code (a.base (.of key cls object)) = some σ ∧
      image.pops? (.invoke (TypeId.index p) m) = some (n + 1) ∧ σ[n]? = some .receiver
  delegates : a.rest (.of key cls object) (a.base (.of key cls object)) =
    a.events (.of key cls object) code (a.base (.of key cls object)) ++ a.parentScript key cls ++
      a.rest (.of key cls object) (a.base (.of key cls object) + 1)
  next : ∀ i j, Relation.ReflTransGen (Leads code) 0 i → Leads code i j →
    i ≠ a.base (.of key cls object) → a.rest (.of key cls object) i =
      a.events (.of key cls object) code i ++ a.rest (.of key cls object) j
  result : ∀ i, code[i]? = some .return →
    a.rest (.of key cls object) i = a.events (.of key cls object) code i ∧
      (key = .initializer → image.shape? code i = some [.receiver])

section

variable {a : Analysis} {image : Image} {cls : Nat} {key : MemberKey} {chunk : Chunk}

/-- The call of the parent's member in the code of a member that builds its receiver. -/
theorem Image.Builds.call {code : Array Instr} {front : List Instr} {parent m : Nat}
    (h : image.Builds key code front parent m) :
    code[front.length]? = some (.invoke parent m) ∧ image.members[m]? = some key ∧
      ∃ σ n, image.shape? code front.length = some σ ∧
        image.pops? (.invoke parent m) = some (n + 1) ∧ σ[n]? = some .receiver := by
  obtain ⟨_, _, _, heq, _, _, vs, _, hpops, hpass⟩ := h.delegates.shape
  have hshape := Image.shape?_behind h.begins.left rfl (Image.pass?_own hpass)
  have hcall := h.begins.right.head
  rw [Nat.zero_add] at hshape hcall
  refine ⟨hcall, h.member, _, vs.length, hshape, hpops, ?_⟩
  rw [List.getElem?_append_right (Nat.le_refl _), Nat.sub_self, List.getElem?_cons_zero]

/-- Code that runs straight on does not return. -/
theorem CodeAt.ne_return {code : Array Instr} {start i : Nat} {is : List Instr}
    (hcode : CodeAt code start is) (hstraight : ∀ i ∈ is, i.Straight) (hge : start ≤ i)
    (hlt : i < start + is.length) : code[i]? ≠ some .return := fun hi => by
  obtain ⟨k, rfl⟩ := Nat.exists_eq_add_of_le hge
  have hk : k < is.length := by omega
  have hget := hcode k is[k] (List.getElem?_eq_getElem hk)
  rw [hi] at hget
  have := hstraight _ (List.getElem_mem hk) 0
  rw [← Option.some.inj hget] at this
  cases this

/-- The field initializer of a class. -/
theorem initializer_plan (W : WellTyped a) (A : Assembled a image)
    (h : a.MemberChunk image cls .initializer chunk) (object : Value) :
    a.Plan image .initializer cls object chunk.code := by
  obtain ⟨d, p, r, parent, hd, ht, hk, himpl⟩ := h
  obtain ⟨_, rfl⟩ := TypeId.ne_unit_of_construct hk
  obtain ⟨m, codes, hbuilds, hcodes, hlist, hlast⟩ := initializer_builds W A ht hk himpl
  have hlt := fieldMarks_lt hcodes cls 3
  -- All of the code but the last instruction runs straight on.
  have hfront : CodeAt chunk.code 0 ([Instr.load 0, .invoke (TypeId.index p) m, .pop] ++ codes.flatten ++
      [Instr.load 0]) ∧ chunk.code[3 + codes.flatten.length + 1]? = some .return ∧
      chunk.code.size = 3 + codes.flatten.length + 2 := by
    have hwhole := CodeAt.whole hlist
    rw [List.append_cons _ (Instr.load 0)] at hwhole
    refine ⟨hwhole.left, ?_, ?_⟩
    · have hend := hwhole.right.head
      simpa [Nat.add_comm, Nat.add_left_comm] using hend
    · rw [← Array.length_toList, hlist]
      simp
      omega
  obtain ⟨hfront, hreturn, hsize⟩ := hfront
  have hstraight : ∀ i ∈ [Instr.load 0, .invoke (TypeId.index p) m, .pop] ++ codes.flatten ++
      [Instr.load 0], i.Straight := by
    simp only [List.forall_mem_append, List.forall_mem_cons]
    exact ⟨⟨⟨fun _ => rfl, fun _ => rfl, fun _ => rfl, by simp⟩, fields_straight hcodes⟩, fun _ => rfl, by simp⟩
  have hlength : ([Instr.load 0, .invoke (TypeId.index p) m, .pop] ++ codes.flatten ++
      [Instr.load 0]).length = 3 + codes.flatten.length + 1 := by
    simp
    omega
  obtain ⟨_, base, _, hparent, _⟩ := ht.constructor
  refine ⟨hbuilds.settled, ⟨p, m, ht.parent_eq, ⟨base, hparent⟩, hbuilds.call⟩, rest_initializer_base hd, ?_, ?_⟩
  · intro i j _ hij hi
    have hlt' : i < 3 + codes.flatten.length + 1 := by
      by_contra hge
      obtain ⟨instr, hinstr, hj⟩ := hij
      have := (Array.getElem?_eq_some_iff.mp hinstr).1
      obtain rfl : i = 3 + codes.flatten.length + 1 := by omega
      rw [hreturn] at hinstr
      cases hinstr
      cases hj
    obtain rfl := hfront.leads_straight hstraight (Nat.zero_le _) (by omega) hij
    exact rest_initializer hd hi
  · intro i hi
    obtain rfl : i = 3 + codes.flatten.length + 1 := by
      have := (Array.getElem?_eq_some_iff.mp hi).1
      by_contra hne
      exact hfront.ne_return hstraight (Nat.zero_le _) (by omega) hi
    exact ⟨rest_initializer_end hd (fun p hp => Nat.lt_succ_of_lt (hlt p hp)) (by omega), fun _ => hlast⟩

/-- In a chunk with code in front of its body, no path leads from the body back in front of it. -/
theorem EmitsChunk.onward {params : List Param} {before : List Instr} {body : Option (Stmt Typing)}
    {i j : Nat} (h : EmitsChunk image.pools a.classes params before body chunk)
    (hstraight : ∀ i ∈ before, i.Straight) (hi : Relation.ReflTransGen (Leads chunk.code) 0 i)
    (hge : before.length ≤ i) (hij : Leads chunk.code i j) : before.length ≤ j := by
  have hend {start : Nat} (hlast : CodeAt chunk.code start [.pushNull, .return])
      (hsize : chunk.code.size = start + 2) (hstart : start ≤ i) : start ≤ j := by
    have hlt : i < chunk.code.size := by
      obtain ⟨_, hinstr, _⟩ := hij
      exact (Array.getElem?_eq_some_iff.mp hinstr).1
    rcases CodeAt.leads_value (show [Instr.pushNull].length = 1 from rfl) hlast
      (List.forall_mem_singleton.mpr fun _ => rfl) ⟨hstart, by omega⟩ hij with hj | hj
    · exact hj.1
    · cases hj
  cases body with
  | none =>
    obtain ⟨_, hcode, rfl⟩ := h.code
    rw [List.append_nil] at hcode
    refine hend (by simpa using (CodeAt.whole hcode).right) ?_ hge
    rw [← Array.length_toList, hcode, List.length_append]
    rfl
  | some body =>
    obtain ⟨_, hbody, hcode, hlast, hsize⟩ := h.body_at
    rcases h.reached hstraight hi with hlt | hlive | ⟨hbehind, _⟩
    · omega
    · rcases hbody.leads_live hcode hlive hij with hj | ⟨rfl, _⟩
      · exact (Stmt.live_range hj).1
      · exact Nat.le_add_right _ _
    · exact Nat.le_trans (Nat.le_add_right _ _) (hend hlast hsize hbehind)

/-- The constructor of a class. -/
theorem constructor_plan (W : WellTyped a) (A : Assembled a image)
    (h : a.MemberChunk image cls .constructor chunk) (object : Value) :
    a.Plan image .constructor cls object chunk.code := by
  obtain ⟨d, p, r, parent, hd, ht, hk, himpl⟩ := h
  obtain ⟨_, rfl⟩ := TypeId.ne_unit_of_construct hk
  obtain ⟨front, m, hlen, hbuilds⟩ := constructor_builds W A ht hk himpl
  have hbase : a.base (.of .constructor cls object) = front.length :=
    (base_constructor hd).trans hlen.symm
  have hdelegation : d.delegation = front.length := hlen.symm
  have hstraight : ∀ i ∈ front ++ [Instr.invoke (TypeId.index p) m, .pop], i.Straight := by
    simp only [List.forall_mem_append, List.forall_mem_cons]
    exact ⟨hbuilds.delegates.straight, fun _ => rfl, fun _ => rfl, by simp⟩
  have hback : ∀ i j, Relation.ReflTransGen (Leads chunk.code) 0 i → Leads chunk.code i j →
      front.length + 2 ≤ i → front.length + 2 ≤ j := by
    intro i j hi hij hge
    generalize hkey : MemberKey.constructor = key at himpl
    cases himpl with
    | initializer => cases hkey
    | @method md _ => exact absurd hkey (md.name.key_ne rfl)
    | @constructor cd _ _ hhead hbefore hchunk =>
      have hbaseArguments : d.baseArguments = cd.baseArguments.getD [] := by rw [ClassDecl.baseArguments, hhead]; rfl
      have hlength := hbefore.length_eq
      rw [hbaseArguments] at hlen
      exact Nat.le_trans (by omega) (hchunk.onward hbefore.straight hi (by omega) hij)
    | implicitConstructor hhead hbefore hchunk =>
      have hbaseArguments : d.baseArguments = [] := by rw [ClassDecl.baseArguments, hhead]; rfl
      have hlength := hbefore.length_eq
      rw [hbaseArguments] at hlen
      exact Nat.le_trans (by omega) (hchunk.onward hbefore.straight hi (by omega) hij)
  have hreturn : ∀ i, chunk.code[i]? = some .return → front.length + 2 ≤ i := by
    intro i hi
    by_contra hlt
    exact hbuilds.begins.ne_return hstraight (Nat.zero_le _) (by simp; omega) hi
  obtain ⟨_, base, _, hparent, _⟩ := ht.constructor
  refine ⟨hbase ▸ hbuilds.settled, ⟨p, m, ht.parent_eq, ⟨base, hparent⟩, hbase ▸ hbuilds.call⟩, ?_, ?_, ?_⟩
  · rw [hbase, ← hdelegation]
    refine rest_constructor_base hd fun hi => ?_
    have := hreturn _ hi
    omega
  · intro i j hi hij hne
    rw [hbase, ← hdelegation] at hne
    have hfront : i < front.length + 2 → j = i + 1 := fun hlt =>
      hbuilds.begins.leads_straight hstraight (Nat.zero_le _) (by simp; omega) hij
    refine rest_constructor_next hd (fun hlt => hfront (by omega)) (fun hgt => ?_) hne fun hr => ?_
    · by_cases hlt : i < front.length + 2
      · have := hfront hlt
        omega
      · have := hback i j hi hij (by omega)
        omega
    · cases hij.mem hr
  · intro i hi
    have := hreturn i hi
    exact ⟨rest_constructor_end hd (by omega) hi, fun heq => by cases heq⟩

/-- The member of a declared class that builds its receiver. -/
theorem Analysis.MemberChunk.plan (W : WellTyped a) (A : Assembled a image)
    (h : a.MemberChunk image cls key chunk) (hkey : key.isInherited = false) (object : Value) :
    a.Plan image key cls object chunk.code := by
  cases key with
  | initializer => exact initializer_plan W A h object
  | constructor => exact constructor_plan W A h object
  | _ => cases hkey

/-- A method builds no object but new ones. -/
theorem Analysis.MemberChunk.settled (W : WellTyped a) (A : Assembled a image)
    (h : a.MemberChunk image cls key chunk) (hkey : key.isInherited = true) :
    image.SettledIn none chunk.code 0 chunk.code.size := by
  obtain ⟨d, p, r, parent, _, ht, _, himpl⟩ := h
  cases himpl with
  | method hmd hchunk => exact (method_settles W A ht hmd hchunk).1
  | initializer | constructor | implicitConstructor => cases hkey

/-! ## Calls of members -/

/-- What a call may find is a native of a built-in class, or the chunk of a member of a declared one. -/
theorem resolve_cases (W : WellTyped a) (A : Assembled a image) {c member owner : Nat} {body : Body}
    (h : image.resolve? c member = some (owner, body)) : ∃ key, image.members[member]? = some key ∧
      ((∃ b ∈ Builtin.classes, ∃ bm ∈ b.methods, bm.key = key ∧ body = .ofNative bm.native) ∨
      ∃ cls chunk, owner = Builtin.count + cls ∧ body = .compiled chunk ∧
        a.MemberChunk image cls key chunk) := by
  obtain ⟨k, _, hk⟩ := List.exists_of_findSome?_eq_some h
  simp only [Option.map_eq_some_iff, Option.bind_eq_some_iff, Prod.mk.injEq] at hk
  obtain ⟨body, ⟨c, hc, hbody⟩, rfl, rfl⟩ := hk
  obtain ⟨key, hm, hnative | ⟨cls, d, p, parent, r, rfl, hd, ht, hk, himpl⟩⟩ := body_cases W A hc hbody
  · exact ⟨key, hm, .inl hnative⟩
  · obtain ⟨chunk, rfl⟩ : ∃ chunk, body = .compiled chunk := by
      cases himpl <;> exact ⟨_, rfl⟩
    exact ⟨key, hm, .inr ⟨cls, chunk, rfl, rfl, d, p, r, parent, hd, ht, hk, himpl⟩⟩

/-- The image has a number for field initializers. -/
theorem image_initializes (W : WellTyped a) (A : Assembled a image) :
    ∃ member, image.Initializes member ∧ image.members[member]? = some .initializer := by
  obtain ⟨member, hm⟩ : ∃ member : Nat, image.members[member]? = some .initializer :=
    member_of_any A ⟨_, .tail _ (.head _), rfl⟩
  refine ⟨member, ⟨memberId_of_member A hm, fun k owner native n hres => ?_⟩, hm⟩
  obtain ⟨key, hkey, ⟨b, hb, bm, hbm, hbk, hbody⟩ | ⟨_, _, _, hbody, _⟩⟩ := resolve_cases W A hres
  · obtain rfl : key = .initializer := Option.some.inj (hkey.symm.trans hm)
    have hall : ∀ b ∈ Builtin.classes, ∀ bm ∈ b.methods, bm.key = .initializer → bm.native = .anyInit := by
      decide
    rw [Body.ofNative, hall b hb bm hbm hbk] at hbody
    exact (Body.native.inj hbody).1
  · cases hbody

/-- The member of a class that builds objects is its own. That of a built-in class is a native. -/
theorem resolve_building (W : WellTyped a) (A : Assembled a image) {id member : Nat} {meth : Method}
    (hctor : a.classes.constructor? id = some meth) (hkey : key.isInherited = false)
    (hm : image.members[member]? = some key) :
    ∃ owner body, image.resolve? (TypeId.index id) member = some (owner, body) ∧
      ((id < TypeId.first ∧ ∃ native n, body = .native native n) ∨
      ∃ cls chunk, id = TypeId.first + cls ∧ owner = Builtin.count + cls ∧ body = .compiled chunk ∧
        a.MemberChunk image cls key chunk) := by
  have hown {body : Body} (h : BodyOf a image id key body) :
      (id < TypeId.first ∧ ∃ native n, body = .native native n) ∨
      ∃ cls chunk, id = TypeId.first + cls ∧ TypeId.index id = Builtin.count + cls ∧
        body = .compiled chunk ∧ a.MemberChunk image cls key chunk := by
    cases h with
    | builtin hb _ _ hbody =>
      exact .inl ⟨Nat.lt_succ_of_lt (List.getElem?_eq_some_iff.mp hb).1, _, _, hbody⟩
    | @user cls p parent d hid hd hp hk himpl =>
      subst hid
      obtain ⟨q, r, ht⟩ := W.each cls d hd
      obtain rfl : p = q := Option.some.inj (hp.symm.trans ht.parent_eq)
      obtain ⟨chunk, rfl⟩ : ∃ chunk, body = .compiled chunk := by
        cases himpl <;> exact ⟨_, rfl⟩
      exact .inr ⟨cls, chunk, rfl, TypeId.index_user cls, rfl, d, p, r, parent, hd, ht, hk, himpl⟩
  have hinst := W.constructor_inheritable hctor
  cases key with
  | initializer =>
    rcases resolve_initializer W A hinst hm with ⟨hlt, hres⟩ | ⟨_, body, hres, hbody⟩
    · exact ⟨_, _, hres, .inl ⟨hlt, _, _, rfl⟩⟩
    · exact ⟨_, body, hres, hown hbody⟩
  | constructor =>
    obtain ⟨r, hr, hmeth⟩ := Option.bind_eq_some_iff.mp hctor
    obtain ⟨body, hres, hbody, _⟩ := resolve_method W A (W.inheritable_lt hinst) hinst.ne_unit hm
      (by simp) (ClassTable.lookupMethod_own hr hmeth)
    exact ⟨_, body, hres, hown hbody⟩
  | _ => cases hkey

end

end ClassLang
