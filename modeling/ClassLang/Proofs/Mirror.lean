import ClassLang.Proofs.Safety

/-!
# The image mirrors the class table

Classes and constructs are numbered differently, since the unit type has no construct, and members get their
numbers in the order in which they are first met. Up to these two numberings the image of a program is its
class table (`Lower.image_mirrors`): parents, instances, numbers of fields and methods along the chain of
parents are the same, whatever the order of the declarations. What the class table does not find, the
image does not find either (`resolve_none`).
-/

namespace ClassLang

/-- Apart from the unit type, an image tells of the classes what their table tells. Construct
`TypeId.index id` stands for the class `id` (`TypeId.construct_of_ne`). -/
structure ClassTable.Mirrors (t : ClassTable) (image : Image) : Prop where
  /-- There is one construct for each class but the unit type. -/
  size : image.constructs.size + 1 = t.size
  /-- No member has two numbers. -/
  members : image.members.toList.Nodup
  /-- A construct has the name, the number of fields and the parent of its class. -/
  construct : ∀ id < t.size, id ≠ TypeId.unit →
    ∃ c, image.construct? (TypeId.index id) = some c ∧ c.name = t.name id ∧
      t.fieldCount? id = some c.fieldCount ∧ c.parent = (t.parent? id).map TypeId.index
  /-- Instances are found as subclasses are. -/
  isInstance : ∀ s < t.size, s ≠ TypeId.unit → ∀ u < t.size, u ≠ TypeId.unit →
    image.isInstance (TypeId.index s) (TypeId.index u) = t.isSubclass s u
  /-- The number of a key leads to a body on a construct exactly where the key leads to a method on its
  class, and the body takes the receiver and the parameters of the method. -/
  resolve : ∀ id < t.size, id ≠ TypeId.unit → ∀ key ≠ MemberKey.initializer,
    ((image.memberId? key).bind (image.resolve? (TypeId.index id))).map
        (fun found => (found.1, found.2.arguments)) =
      (t.lookupMethod? id key).map fun found => (TypeId.index found.1, 1 + found.2.params.length)

theorem Pools.Distinct.nodup {p : Pools} (h : p.Distinct) : p.members.toList.Nodup := by
  rw [List.nodup_iff_getElem?_ne_getElem?]
  intro i j hij hj heq
  rw [Array.length_toList] at hj
  simp only [Array.getElem?_toList, Array.getElem?_eq_getElem (Nat.lt_trans hij hj),
    Array.getElem?_eq_getElem hj] at heq
  refine absurd (h i j _ (Array.getElem?_eq_getElem (Nat.lt_trans hij hj)) ?_) (Nat.ne_of_lt hij)
  rw [Array.getElem?_eq_getElem hj, ← heq]

section

variable {a : Analysis} {image : Image} (W : WellTyped a) (A : Assembled a image)

theorem Image.member_of_memberId {m : Nat} {key : MemberKey} (hm : image.memberId? key = some m) :
    image.members[m]? = some key := by
  obtain ⟨hk, heq, _⟩ := Array.findIdx?_eq_some_iff_getElem.mp hm
  rw [← beq_iff_eq.mp heq]
  exact Array.getElem?_eq_getElem hk

include A

theorem memberId_of_member {m : Nat} {key : MemberKey} (hm : image.members[m]? = some key) :
    image.memberId? key = some m := by
  cases h : image.memberId? key with
  | none =>
    have hall := Array.findIdx?_eq_none_iff.mp h key (Array.mem_of_getElem? hm)
    simp at hall
  | some k =>
    rw [A.distinct k m key (Image.member_of_memberId h) hm]

include W

/-- The key of every method of a class has a number. -/
theorem member_of_method {id : Nat} {r : ClassRecord} {key : MemberKey} {meth : Method}
    (hne : id ≠ TypeId.unit) (hr : a.classes.record? id = some r) (hkey : key ≠ .initializer)
    (hmeth : r.method? key = some meth) : ∃ m : Nat, image.members[m]? = some key := by
  rcases W.class_cases (ClassTable.lt_of_record hr) with ⟨b, hb⟩ | rfl | ⟨i, d, p, r', rfl, hd, ht⟩
  · obtain ⟨c, _, hemits⟩ := A.builtin id b hb
    rw [W.builtin id (Nat.lt_of_lt_of_le (List.getElem?_eq_some_iff.mp hb).1 (by decide))] at hr
    obtain ⟨bm, hbm, hk, _⟩ := ResolutionLemmas.builtin_method hb hr hmeth
    exact hemits.bodies.member key ⟨bm, hbm, hk⟩
  · exact absurd rfl hne
  · rw [ht.record] at hr
    cases hr
    obtain ⟨c, _, hemits⟩ := A.user i d hd
    obtain ⟨_, _, _, _, _, htable⟩ := hemits.bodies
    exact htable.member key ((ht.hasBody_iff hkey).mpr (Option.isSome_of_eq_some hmeth))

/-- Where the table finds no method, the image finds no body. -/
theorem resolve_none {id m : Nat} {key : MemberKey} (hid : id < a.classes.size)
    (hne : id ≠ TypeId.unit) (hm : image.members[m]? = some key) (hkey : key ≠ .initializer)
    (hl : a.classes.lookupMethod? id key = none) : image.resolve? (TypeId.index id) m = none := by
  have hall := ClassTable.ancestors_lt W.rooted hid
  have hunit := W.ancestors_ne_unit hid hne
  rw [Image.resolve?, ancestors_index W A hid hne, List.findSome?_map, List.findSome?_eq_none_iff]
  intro b hb
  -- No class on the chain has a method of its own under the key, and so no construct has a body.
  obtain ⟨r, hr⟩ := ClassTable.exists_record (hall b hb)
  obtain ⟨c, hc, _⟩ := construct_of_class W A (hall b hb) (hunit b hb)
  have hnone : r.method? key = none := by
    simpa [hr] using List.findSome?_eq_none_iff.mp hl b hb
  have hown := (own_body W A (hunit b hb) hr hc hm hkey).1
  rw [hnone, Option.isSome_none] at hown
  simpa [hc] using hown.symm

/-- The numbers of keys lead where the keys lead. -/
theorem resolve_eq_lookup {id : Nat} {key : MemberKey} (hid : id < a.classes.size)
    (hne : id ≠ TypeId.unit) (hkey : key ≠ .initializer) :
    ((image.memberId? key).bind (image.resolve? (TypeId.index id))).map
        (fun found => (found.1, found.2.arguments)) =
      (a.classes.lookupMethod? id key).map fun found =>
        (TypeId.index found.1, 1 + found.2.params.length) := by
  cases hl : a.classes.lookupMethod? id key with
  | some found =>
    obtain ⟨owner, meth⟩ := found
    obtain ⟨howner, r, hr, hmeth⟩ := ClassTable.lookupMethod_some hl
    obtain ⟨m, hm⟩ := member_of_method W A (W.ancestors_ne_unit hid hne owner howner) hr hkey hmeth
    obtain ⟨body, hbody, _, hargs⟩ := resolve_method W A hid hne hm hkey hl
    simp [memberId_of_member A hm, hbody, hargs, Nat.add_comm]
  | none =>
    -- The key may well have a number, when another class has a method under it.
    cases hm : image.memberId? key with
    | none => rfl
    | some m =>
      have hnone := resolve_none W A hid hne (Image.member_of_memberId hm) hkey hl
      simp [hnone]

end

/-- The image of a program mirrors the class table. -/
theorem Lower.image_mirrors {p : Program Span} {a : Analysis} {image : Image}
    (hcheck : Check.program p = .ok a) (hlower : Lower.image a = .ok image) :
    a.classes.Mirrors image := by
  have W := Check.program_wellTyped hcheck
  have A := Lower.image_assembled hlower
  refine ⟨?_, A.distinct.nodup, fun id hid hne => ?_, fun s hs hsne u _ hune => ?_,
    fun id hid hne key hkey => resolve_eq_lookup W A hid hne hkey⟩
  · have hfirst : TypeId.first = Builtin.count + 1 := rfl
    rw [A.size, W.size, hfirst]
    omega
  · obtain ⟨c, hc, hname, hcount, hparent⟩ := construct_of_class W A hid hne
    obtain ⟨r, hr⟩ := ClassTable.exists_record hid
    obtain ⟨start, hplaced⟩ := W.placed id r hr
    refine ⟨c, hc, hname, ?_, hparent⟩
    rw [hcount]
    simp [ClassTable.fieldCount, ClassTable.fieldCount?, hr, hplaced.count]
  · exact isInstance_index W A hs hsne hune

/-- A chain of classes, the last of which comes first; the first and the last have a method in common. -/
def reversed : String :=
  "class C : B \x7b public override f() = return \x7d\nclass B : A \x7b\x7d\n" ++
  "class A \x7b public f() = return \x7d\nclass Main \x7b\x7d\n"

/-- The image of the chain has four constructs of its own behind the built-in ones, and mirrors the
chain. -/
theorem reversed_image_mirrors : ∃ p a image, Program.ofSource reversed = .ok p ∧
    Check.program p = .ok a ∧ Lower.image a = .ok image ∧ image.constructs.size = 9 ∧
    a.classes.Mirrors image := by
  have hsize : (Image.ofSource reversed).toOption.map (·.constructs.size) = some 9 := by decide +kernel
  simp only [Option.map_eq_some_iff] at hsize
  obtain ⟨image, himage, hsize⟩ := hsize
  obtain ⟨p, a, hp, _, hcheck, hlower⟩ := Image.ofSource_stages (toOption_eq_some.mp himage)
  exact ⟨p, a, image, hp, hcheck, hlower, hsize, Lower.image_mirrors hcheck hlower⟩

end ClassLang
