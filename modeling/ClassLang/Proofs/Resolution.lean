import ClassLang.Proofs.Assembled
import ClassLang.Proofs.WellTyped

/-!
# Constructs and classes

The image of a program mirrors its class table. Constructs are numbered like classes with the unit type
left out (`TypeId.index`), their parents are those of the classes, and so instances and inherited bodies
are found where the table finds classes and methods (`isInstance_index`, `resolve_method`). The member of
the field initializers is resolved apart, since the table does not list it (`resolve_initializer`).
-/

namespace ClassLang

namespace TypeId

/-- The construct of a class, the unit type apart. -/
def index (id : Nat) : Nat := if id < unit then id else id - 1

theorem construct_of_ne {id : Nat} (h : id ≠ unit) : construct? id = some (index id) := by
  unfold index construct?
  split
  · rfl
  · rfl

theorem ne_unit_of_construct {id k : Nat} (h : construct? id = some k) : id ≠ unit ∧ index id = k := by
  have hne : id ≠ unit := fun hu => by
    rw [hu] at h
    cases h
  exact ⟨hne, Option.some.inj ((construct_of_ne hne).symm.trans h)⟩

theorem index_builtin {id : Nat} (h : id < unit) : index id = id := if_pos h

theorem index_user (i : Nat) : index (first + i) = Builtin.count + i := by
  have hlt : ¬ first + i < unit := fun h => by simp only [first, unit] at h; omega
  have hcount : Builtin.count = 5 := rfl
  rw [index, if_neg hlt, hcount]
  simp only [first, unit]
  omega

theorem index_injective {id id' : Nat} (h : id ≠ unit) (h' : id' ≠ unit)
    (heq : index id = index id') : id = id' := by
  have h5 : unit = 5 := rfl
  unfold index at heq
  rw [h5] at h h' heq
  by_cases hlt : id < 5 <;> by_cases hlt' : id' < 5 <;> simp only [hlt, hlt', if_true, if_false] at heq <;>
    omega

end TypeId

/-- The names that are visible behind the parameters of a member. -/
theorem ParamsBound.names {t : ClassTable} {id : TypeId} {result : Ty} {params : List Param}
    {types : List Ty} {env : Environment} (h : ParamsBound t id result params types env)
    (hlen : types.length = params.length) : env.visible.map (·.name) = paramNames params := by
  have hmap : ∀ (params : List Param) (types : List Ty), types.length = params.length →
      (params.zipWith (fun p τ => (⟨p.name.name, τ⟩ : Binding)) types).map (·.name) =
        params.map (·.name.name) := by
    intro params
    induction params with
    | nil => intro types _; rfl
    | cons p params ih =>
      intro types hlen
      match types with
      | τ :: types => simp [ih types (Nat.succ.inj hlen)]
  rw [h.visible, paramNames, List.map_reverse, hmap params types hlen]

/-- The body under a key of a class. -/
inductive BodyOf (a : Analysis) (image : Image) (owner : Nat) (key : MemberKey) (body : Body) : Prop
  | builtin {b : BuiltinClass} {m : BuiltinMethod} :
      Builtin.classes[owner]? = some b → m ∈ b.methods → m.key = key → body = .ofNative m.native →
      BodyOf a image owner key body
  | user {i p parent : Nat} {d : ClassDecl Typing} :
      owner = TypeId.first + i → a.program.classes[i]? = some d →
      a.classes.parent? owner = some p → TypeId.construct? p = some parent →
      Implements image.pools a.classes owner parent d key body → BodyOf a image owner key body

namespace ResolutionLemmas

theorem findSome_of_pointwise {α β γ : Type} {F : α → Option β} {G : α → Option γ} {l : List α}
    (h : ∀ a ∈ l, (F a).isSome = (G a).isSome) {x : β} (hF : l.findSome? F = some x) :
    ∃ a ∈ l, F a = some x ∧ (G a).isSome = true ∧ l.findSome? G = G a := by
  induction l with
  | nil => cases hF
  | cons a l ih =>
    obtain ⟨ha, hl⟩ := List.forall_mem_cons.mp h
    cases hFa : F a with
    | some y =>
      simp only [List.findSome?_cons, hFa] at hF
      cases hF
      have hG : (G a).isSome = true := by rw [← ha, hFa]; rfl
      obtain ⟨z, hz⟩ := Option.isSome_iff_exists.mp hG
      exact ⟨a, List.mem_cons_self, hFa, hG, by simp [hz]⟩
    | none =>
      simp only [List.findSome?_cons, hFa] at hF
      obtain ⟨b, hb, hFb, hGb, heq⟩ := ih hl hF
      have hG : G a = none := by
        rw [hFa] at ha
        exact Option.isNone_iff_eq_none.mp (by simpa using ha.symm)
      exact ⟨b, List.mem_cons_of_mem _ hb, hFb, hGb, by simp [hG, heq]⟩

/-- The record and the description of a built-in class tell the same. -/
theorem builtin_record {i : Nat} {b : BuiltinClass} (hb : Builtin.classes[i]? = some b) :
    ∃ r, ClassTable.standard.record? i = some r ∧ r.name = b.name ∧ r.parent = b.parent ∧
      r.fieldCount = some b.fields.length ∧
      r.methods.map (fun m => (m.key, m.params, m.returns)) =
        (b.methods.filter (·.key ≠ .initializer)).map fun m => (m.key, m.params, m.returns) := by
  have hdata : ∀ e ∈ Builtin.classes.zip ClassTable.standard.records,
      e.2.name = e.1.name ∧ e.2.parent = e.1.parent ∧ e.2.fieldCount = some e.1.fields.length ∧
      e.2.methods.map (fun m => (m.key, m.params, m.returns)) =
        (e.1.methods.filter (·.key ≠ .initializer)).map fun m => (m.key, m.params, m.returns) := by
    decide +kernel
  have hi : i < 5 := (List.getElem?_eq_some_iff.mp hb).1
  obtain ⟨r, hr, _⟩ :=
    Hierarchy.HierarchyLemmas.standard_record i (Nat.lt_of_lt_of_le hi (by decide))
  refine ⟨r, hr, hdata (b, r) (List.mem_of_getElem? (i := i) ?_)⟩
  exact List.getElem?_zip_eq_some.mpr ⟨hb, hr⟩

/-- The methods of the record are described. -/
theorem builtin_method {i : Nat} {b : BuiltinClass} (hb : Builtin.classes[i]? = some b)
    {r : ClassRecord} (hr : ClassTable.standard.record? i = some r) {key : MemberKey} {m : Method}
    (hm : r.method? key = some m) : ∃ bm ∈ b.methods, bm.key = key ∧ bm.params = m.params := by
  obtain ⟨r', hr', _, _, _, hmethods⟩ := builtin_record hb
  rw [hr] at hr'
  cases hr'
  obtain rfl : m.key = key := by simpa using List.find?_some hm
  have hmem : (m.key, m.params, m.returns) ∈ r.methods.map (fun m => (m.key, m.params, m.returns)) :=
    List.mem_map_of_mem (List.mem_of_find?_eq_some hm)
  rw [hmethods, List.mem_map] at hmem
  obtain ⟨bm, hbm, heq⟩ := hmem
  exact ⟨bm, (List.mem_filter.mp hbm).1, congrArg (·.1) heq, congrArg (·.2.1) heq⟩

theorem builtin_arity {i : Nat} {b : BuiltinClass} (hb : Builtin.classes[i]? = some b)
    {m : BuiltinMethod} (hm : m ∈ b.methods) : m.native.arity = m.params.length + 1 := by
  have hall : ∀ c ∈ Builtin.classes, ∀ m ∈ c.methods, m.native.arity = m.params.length + 1 := by
    decide
  exact hall b (List.mem_of_getElem? hb) m hm

/-- No built-in class has a key twice. -/
theorem builtin_unique {i : Nat} {b : BuiltinClass} (hb : Builtin.classes[i]? = some b)
    {m m' : BuiltinMethod} (hm : m ∈ b.methods) (hm' : m' ∈ b.methods) (hkey : m.key = m'.key) :
    m = m' := by
  have hall : ∀ c ∈ Builtin.classes, ∀ m ∈ c.methods, ∀ m' ∈ c.methods, m.key = m'.key → m = m' := by
    decide +kernel
  exact hall b (List.mem_of_getElem? hb) m hm m' hm' hkey

end ResolutionLemmas

open ResolutionLemmas

section

variable {a : Analysis} {image : Image} (W : WellTyped a) (A : Assembled a image)

include W

/-- A class is built in, the unit type or declared. -/
theorem WellTyped.class_cases {id : Nat} (hid : id < a.classes.size) :
    (∃ b, Builtin.classes[id]? = some b) ∨ id = TypeId.unit ∨ ∃ i d p r,
      id = TypeId.first + i ∧ a.program.classes[i]? = some d ∧ ClassTyped a.classes id p r d := by
  by_cases hu : id < TypeId.first
  · by_cases hb : id < 5
    · have hlt : id < Builtin.classes.length := hb
      exact .inl ⟨_, List.getElem?_eq_getElem hlt⟩
    · exact .inr (.inl (Nat.le_antisymm (Nat.le_of_lt_succ hu) (Nat.le_of_not_lt hb)))
  · exact .inr (.inr (W.user_class hid hu))

/-- A parent is never the unit type. -/
theorem WellTyped.parent_ne_unit {id p : Nat} (hp : a.classes.parent? id = some p) :
    p ≠ TypeId.unit := by
  have hid := ClassTable.lt_of_parent hp
  by_cases hu : id < TypeId.first
  · obtain ⟨r, hr, hany, _⟩ := Hierarchy.HierarchyLemmas.standard_record id hu
    rw [ClassTable.parent_of_record ((W.builtin id hu).trans hr)] at hp
    rw [hany p hp]
    decide
  · obtain ⟨i, d, q, r, rfl, _, hc⟩ := W.user_class hid hu
    rw [hc.parent_eq] at hp
    cases hp
    rcases hc.inheritable with rfl | rfl | ⟨hge, _⟩
    · decide
    · decide
    · exact fun h => Nat.not_succ_le_self TypeId.unit (show TypeId.first ≤ TypeId.unit from h ▸ hge)

theorem WellTyped.ancestors_ne_unit {id : Nat} (hid : id < a.classes.size) (hne : id ≠ TypeId.unit) :
    ∀ c ∈ a.classes.ancestors id, c ≠ TypeId.unit := by
  have hchain := W.rooted.ancestors_chain hid
  generalize a.classes.ancestors id = l at hchain
  induction hchain with
  | root _ => simpa using hne
  | link hp _ ih =>
    intro c hc
    rcases List.mem_cons.mp hc with rfl | hc
    · exact hne
    · exact ih (W.rooted.parent_lt _ _ hp) (W.parent_ne_unit hp) c hc

include A

/-- Every class but the unit type has a construct of its name, parent and number of fields. -/
theorem construct_of_class {id : Nat} (hid : id < a.classes.size) (hne : id ≠ TypeId.unit) :
    ∃ c, image.construct? (TypeId.index id) = some c ∧ c.name = a.classes.name id ∧
      c.fieldCount = a.classes.fieldCount id ∧
      c.parent = (a.classes.parent? id).map TypeId.index := by
  rcases W.class_cases hid with ⟨b, hb⟩ | rfl | ⟨i, d, p, r, rfl, hd, hc⟩
  · have hlt : id < 5 := (List.getElem?_eq_some_iff.mp hb).1
    obtain ⟨r, hr, hname, hparent, hcount, _⟩ := builtin_record hb
    obtain ⟨c, hc, hemits⟩ := A.builtin id b hb
    have hr' := (W.builtin id (Nat.lt_of_lt_of_le hlt (by decide))).trans hr
    refine ⟨c, by rwa [TypeId.index_builtin hlt], ?_, ?_, ?_⟩
    · simp [ClassTable.name, hr', hname, hemits.name]
    · simp [ClassTable.fieldCount, ClassTable.fieldCount?, hr', hcount, hemits.fieldCount]
    · rw [ClassTable.parent_of_record hr', hemits.parent, hparent]
      cases hp : b.parent with
      | none => rfl
      | some p =>
        obtain ⟨r', hstd, hany, _⟩ :=
          Hierarchy.HierarchyLemmas.standard_record id (Nat.lt_of_lt_of_le hlt (by decide))
        rw [hr] at hstd
        cases hstd
        rw [hany p (hparent.trans hp)]
        rfl
  · exact absurd rfl hne
  · obtain ⟨c, hfound, hemits⟩ := A.user i d hd
    obtain ⟨p', parent, hp', hk, hparent, _⟩ := hemits.bodies
    refine ⟨c, by rwa [TypeId.index_user], ?_, hemits.fieldCount, ?_⟩
    · simp [ClassTable.name, hc.record, hemits.name, hc.name]
    · rw [hparent, hp', Option.map_some, (TypeId.ne_unit_of_construct hk).2]

theorem ancestors_index {id : Nat} (hid : id < a.classes.size) (hne : id ≠ TypeId.unit) :
    image.ancestors (TypeId.index id) = (a.classes.ancestors id).map TypeId.index := by
  have hall := ClassTable.ancestors_lt W.rooted hid
  have hunit := W.ancestors_ne_unit hid hne
  have hchain : Chain image.parent? (TypeId.index id) ((a.classes.ancestors id).map TypeId.index) :=
    (W.rooted.ancestors_chain hid).map TypeId.index fun j hj => by
      obtain ⟨c, hc, _, _, hparent⟩ := construct_of_class W A (hall j hj) (hunit j hj)
      simp only [Image.parent?, hc, Option.bind_some, hparent]
  refine hchain.lineage_eq ?_
  -- Construct indices of classes lie within the image, and so does a chain without repetition.
  refine hchain.length_le ?_
  intro k hk
  obtain ⟨j, hj, rfl⟩ := List.mem_map.mp hk
  obtain ⟨c, hc, _⟩ := construct_of_class W A (hall j hj) (hunit j hj)
  exact (Array.getElem?_eq_some_iff.mp hc).1

/-- Instances are found as subclasses are. -/
theorem isInstance_index {s u : Nat} (hs : s < a.classes.size) (hsne : s ≠ TypeId.unit)
    (hune : u ≠ TypeId.unit) :
    image.isInstance (TypeId.index s) (TypeId.index u) = a.classes.isSubclass s u := by
  rw [Image.isInstance, ancestors_index W A hs hsne, ClassTable.isSubclass, Bool.eq_iff_iff]
  simp only [List.contains_iff_mem, List.mem_map]
  constructor
  · rintro ⟨j, hj, heq⟩
    exact TypeId.index_injective (W.ancestors_ne_unit hs hsne j hj) hune heq ▸ hj
  · exact fun h => ⟨u, h, rfl⟩

/-! ## Bodies -/

omit W A in
/-- The keys of the entries of a declared class. -/
theorem ClassTyped.hasBody_iff {id p : Nat} {r : ClassRecord} {d : ClassDecl Typing}
    (hc : ClassTyped a.classes id p r d) {key : MemberKey} (hkey : key ≠ .initializer) :
    d.HasBody key ↔ (r.method? key).isSome = true := by
  constructor
  · rintro (rfl | rfl | ⟨md, hmd, rfl⟩)
    · exact absurd rfl hkey
    · obtain ⟨m, _, hm, _⟩ := hc.constructor
      simp [hm]
    · obtain ⟨m, hm, _⟩ := hc.methods md hmd
      simp [hm]
  · intro h
    obtain ⟨m, hm⟩ := Option.isSome_iff_exists.mp h
    obtain rfl : m.key = key := by simpa using List.find?_some hm
    have hsig : m.signature ∈ r.methods.map (·.signature) :=
      List.mem_map_of_mem (List.mem_of_find?_eq_some hm)
    rw [hc.registered.methods, List.mem_append] at hsig
    rcases hsig with hsig | hsig
    · obtain ⟨mem, hmem, hs⟩ := List.mem_filterMap.mp hsig
      cases mem with
      | field f => cases hs
      | method md =>
        exact .inr (.inr ⟨md, List.mem_filterMap.mpr ⟨_, hmem, rfl⟩,
          congrArg (·.1) (Option.some.inj hs)⟩)
      | constructor c => exact .inr (.inl (congrArg (·.1) (Option.some.inj hs)).symm)
    · split at hsig
      · exact .inr (.inl (congrArg (·.1) (List.mem_singleton.mp hsig)))
      · cases hsig

omit W A in
/-- The body of a method takes the receiver and one argument for each parameter. -/
theorem Implements.arguments {id p parent : Nat} {r : ClassRecord} {d : ClassDecl Typing}
    (hc : ClassTyped a.classes id p r d) {key : MemberKey} {body : Body} {m : Method}
    (hkey : key ≠ .initializer) (hm : r.method? key = some m)
    (h : Implements image.pools a.classes id parent d key body) :
    body.arguments = m.params.length + 1 := by
  cases h with
  | initializer => exact absurd rfl hkey
  | method hmd hchunk =>
    obtain ⟨m', hm', hlen, _⟩ := hc.methods _ hmd
    rw [hm] at hm'
    cases hm'
    exact hchunk.arguments.trans (by rw [hlen])
  | constructor hhead _ hchunk =>
    obtain ⟨m', _, hm', _, hparams⟩ := hc.constructor
    rw [hm] at hm'
    cases hm'
    rw [hhead] at hparams
    exact hchunk.arguments.trans (by rw [hparams.1])
  | implicitConstructor hhead _ hchunk =>
    obtain ⟨m', _, hm', _, hparams⟩ := hc.constructor
    rw [hm] at hm'
    cases hm'
    rw [hhead] at hparams
    rw [hparams.1]
    exact hchunk.arguments

/-- A class and its construct have methods and bodies under the same keys. -/
theorem own_body {id m : Nat} {r : ClassRecord} {c : Construct} {key : MemberKey}
    (hne : id ≠ TypeId.unit) (hr : a.classes.record? id = some r)
    (hc : image.construct? (TypeId.index id) = some c) (hm : image.members[m]? = some key)
    (hkey : key ≠ .initializer) :
    (r.method? key).isSome = (c.bodies.find? m).isSome ∧
      ∀ meth body, r.method? key = some meth → c.bodies.find? m = some body →
        BodyOf a image id key body ∧ body.arguments = meth.params.length + 1 := by
  rcases W.class_cases (ClassTable.lt_of_record hr) with ⟨b, hb⟩ | rfl | ⟨i, d, p, r', rfl, hd, ht⟩
  · have hlt : id < 5 := (List.getElem?_eq_some_iff.mp hb).1
    obtain ⟨c', hc', hemits⟩ := A.builtin id b hb
    rw [TypeId.index_builtin hlt, hc'] at hc
    cases hc
    obtain ⟨r', hr', _, _, _, hmethods⟩ := builtin_record hb
    rw [(W.builtin id (Nat.lt_of_lt_of_le hlt (by decide))).trans hr'] at hr
    cases hr
    refine ⟨?_, fun meth body hmeth hbody => ?_⟩
    · rw [Bool.eq_iff_iff, ← hemits.bodies.each m key hm]
      constructor
      · intro h
        obtain ⟨meth, hmeth⟩ := Option.isSome_iff_exists.mp h
        obtain ⟨bm, hbm, hk, _⟩ := builtin_method hb hr' hmeth
        exact ⟨bm, hbm, hk⟩
      · rintro ⟨bm, hbm, rfl⟩
        have hmem : (bm.key, bm.params, bm.returns) ∈
            r.methods.map (fun m => (m.key, m.params, m.returns)) := by
          rw [hmethods]
          exact List.mem_map.mpr ⟨bm, List.mem_filter.mpr ⟨hbm, by simpa using hkey⟩, rfl⟩
        obtain ⟨meth, hin, heq⟩ := List.mem_map.mp hmem
        rw [ClassRecord.method?, List.find?_isSome]
        exact ⟨meth, hin, by simpa using congrArg (·.1) heq⟩
    · obtain ⟨bm, hbm, hk, rfl⟩ := hemits.bodies.found m key body hm hbody
      obtain ⟨bm', hbm', hk', hparams⟩ := builtin_method hb hr' hmeth
      obtain rfl := builtin_unique hb hbm hbm' (hk.trans hk'.symm)
      refine ⟨.builtin hb hbm hk rfl, ?_⟩
      rw [← hparams]
      exact builtin_arity hb hbm
  · exact absurd rfl hne
  · rw [ht.record] at hr
    cases hr
    obtain ⟨c', hc', hemits⟩ := A.user i d hd
    rw [TypeId.index_user, hc'] at hc
    cases hc
    obtain ⟨p', parent, hp', hk, _, htable⟩ := hemits.bodies
    refine ⟨?_, fun meth body hmeth hbody => ?_⟩
    · rw [Bool.eq_iff_iff, ← ht.hasBody_iff hkey, htable.each m key hm]
    · have himpl := htable.found m key body hm hbody
      exact ⟨.user rfl hd hp' hk himpl, himpl.arguments ht hkey hmeth⟩

/-- Where the table finds a method, the image finds a body of it. -/
theorem resolve_method {id m owner : Nat} {key : MemberKey} {meth : Method}
    (hid : id < a.classes.size) (hne : id ≠ TypeId.unit) (hm : image.members[m]? = some key)
    (hkey : key ≠ .initializer) (hl : a.classes.lookupMethod? id key = some (owner, meth)) :
    ∃ body, image.resolve? (TypeId.index id) m = some (TypeId.index owner, body) ∧
      BodyOf a image owner key body ∧ body.arguments = meth.params.length + 1 := by
  have hall := ClassTable.ancestors_lt W.rooted hid
  have hunit := W.ancestors_ne_unit hid hne
  have hpoint : ∀ b ∈ a.classes.ancestors id,
      (((a.classes.record? b).bind (·.method? key)).map (b, ·)).isSome =
        (((image.construct? (TypeId.index b)).bind (·.bodies.find? m)).map
          (TypeId.index b, ·)).isSome := by
    intro b hb
    obtain ⟨r, hr⟩ := ClassTable.exists_record (hall b hb)
    obtain ⟨c, hc, _⟩ := construct_of_class W A (hall b hb) (hunit b hb)
    simpa [hr, hc] using (own_body W A (hunit b hb) hr hc hm hkey).1
  obtain ⟨b, hb, hFb, hGb, hfound⟩ := findSome_of_pointwise hpoint hl
  obtain ⟨r, hr⟩ := ClassTable.exists_record (hall b hb)
  obtain ⟨c, hc, _⟩ := construct_of_class W A (hall b hb) (hunit b hb)
  simp only [hr, Option.bind_some, Option.map_eq_some_iff, Prod.mk.injEq] at hFb
  obtain ⟨meth', hmeth, rfl, rfl⟩ := hFb
  simp only [hc, Option.bind_some, Option.isSome_map] at hGb
  obtain ⟨body, hbody⟩ := Option.isSome_iff_exists.mp hGb
  refine ⟨body, ?_, (own_body W A (hunit b hb) hr hc hm hkey).2 _ _ hmeth hbody⟩
  rw [Image.resolve?, ancestors_index W A hid hne, List.findSome?_map]
  refine hfound.trans ?_
  simp [hc, hbody]

omit W in
/-- The image knows the field initializer and the constructor. -/
theorem member_of_any {key : MemberKey} (h : ∃ m ∈ Builtin.any.methods, m.key = key) :
    ∃ m : Nat, image.members[m]? = some key := by
  obtain ⟨c, _, hemits⟩ := A.builtin 0 Builtin.any rfl
  exact hemits.bodies.member key h

/-- The field initializer of a class that can be instantiated: its own, or that of the root, which does
nothing. -/
theorem resolve_initializer {id m : Nat} (hinst : a.classes.Inheritable id)
    (hm : image.members[m]? = some .initializer) :
    (id < TypeId.first ∧
      image.resolve? (TypeId.index id) m = some (TypeId.any, .ofNative .anyInit)) ∨
    ¬ id < TypeId.first ∧
      ∃ body, image.resolve? (TypeId.index id) m = some (TypeId.index id, body) ∧
        BodyOf a image id .initializer body := by
  have hfirst : ∀ (k : Nat) c body, image.construct? k = some c → c.bodies.find? m = some body →
      image.resolve? k m = some (k, body) := by
    intro k c body hc hb
    obtain ⟨n, hn⟩ : ∃ n, image.constructs.size = n + 1 :=
      ⟨image.constructs.size - 1, by
        have hlt : k < image.constructs.size := (Array.getElem?_eq_some_iff.mp hc).1
        omega⟩
    simp [Image.resolve?, Image.ancestors, hn, lineage, hc, hb]
  obtain ⟨c₀, hc₀, hany⟩ := A.builtin 0 Builtin.any rfl
  obtain ⟨body₀, hbody₀⟩ := Option.isSome_iff_exists.mp
    ((hany.bodies.each m .initializer hm).mp (by decide))
  have hinit : body₀ = .ofNative .anyInit := by
    obtain ⟨bm, hbm, hk, rfl⟩ := hany.bodies.found m _ _ hm hbody₀
    have hall : ∀ bm ∈ Builtin.any.methods, bm.key = .initializer → bm.native = .anyInit := by decide
    rw [hall bm hbm hk]
  subst hinit
  rcases hinst with rfl | rfl | ⟨hge, hlt⟩
  · exact .inl ⟨by decide, hfirst 0 c₀ _ hc₀ hbody₀⟩
  · refine .inl ⟨by decide, ?_⟩
    obtain ⟨c₄, hc₄, hconsole⟩ := A.builtin 4 Builtin.console rfl
    have hnone : c₄.bodies.find? m = none := by
      rw [← Option.not_isSome_iff_eq_none, ← hconsole.bodies.each m .initializer hm]
      decide
    have hparent : a.classes.parent? TypeId.console = some TypeId.any := by
      obtain ⟨r, hr, _, hp, _⟩ := builtin_record (i := TypeId.console) (b := Builtin.console) rfl
      rw [ClassTable.parent_of_record ((W.builtin _ (by decide)).trans hr), hp]
      rfl
    have hsize : TypeId.first ≤ a.classes.size := W.size ▸ Nat.le_add_right _ _
    have hroot : a.classes.parent? TypeId.any = none := by
      obtain ⟨r, hr, _, _, hn⟩ := Hierarchy.HierarchyLemmas.standard_record TypeId.any (by decide)
      rw [ClassTable.parent_of_record ((W.builtin _ (by decide)).trans hr), hn rfl]
    have hanc : a.classes.ancestors TypeId.console = [TypeId.console, TypeId.any] := by
      rw [ClassTable.ancestors_link W.rooted hparent,
        ClassTable.ancestors_root (Nat.lt_of_lt_of_le (by decide) hsize) hroot]
    have himage := ancestors_index W A
      (show TypeId.console < a.classes.size from Nat.lt_of_lt_of_le (by decide) hsize) (by decide)
    rw [hanc] at himage
    have h4 : TypeId.index TypeId.console = 4 := rfl
    have h0 : TypeId.index TypeId.any = 0 := rfl
    simp only [List.map_cons, List.map_nil, h4, h0] at himage
    rw [Image.resolve?, h4, himage]
    simp [hc₄, hnone, hc₀, hbody₀, TypeId.any]
  · obtain ⟨i, d, p, r, rfl, hd, ht⟩ := W.user_class hlt (Nat.not_lt_of_le hge)
    obtain ⟨c, hc, hemits⟩ := A.user i d hd
    obtain ⟨p', parent, hp', hk, _, htable⟩ := hemits.bodies
    obtain ⟨body, hbody⟩ := Option.isSome_iff_exists.mp
      ((htable.each m .initializer hm).mp (.inl rfl))
    refine .inr ⟨Nat.not_lt_of_le hge, body, hfirst _ c body (by rwa [TypeId.index_user]) hbody, ?_⟩
    exact .user rfl hd hp' hk (htable.found m _ body hm hbody)

end

end ClassLang
