import ClassLang.Proofs.Bounds
import ClassLang.Proofs.ControlFlow
import ClassLang.Proofs.Places

/-!
# The shape of the operand stack

What the operands of a frame are made of can be told from its code alone. The shape of a stack has one entry
for each operand; of most operands it tells nothing, but it tells where the receiver of the member lies, and
where an object lies whose constructor has still to be called. `Image.effect?` gives the shape behind an
instruction, or nothing if the instruction does not find the operands it needs or takes an unfinished object
for an ordinary value.

One pass through the instructions in the order of the text finds the shapes (`Image.pass?`), since the code
of an expression runs straight on and the stack is empty wherever statements are joined. The code of an
expression calls constructors only on objects that it made itself (`expr_computes`).
-/

namespace ClassLang

/-! ## Shapes -/

/-- What is known of an operand. -/
inductive Slot where
  | plain
  /-- It is the receiver of the member. -/
  | receiver
  /-- It is a new object of a construct, whose constructor has still to be called. -/
  | made (construct : Nat)
  /-- It is the new object below it once more, as the receiver of that call. -/
  | again
deriving DecidableEq, Repr

/-- The operand is an ordinary value. -/
def Slot.free : Slot → Bool
  | .plain | .receiver => true
  | .made _ | .again => false

namespace Image

variable (image : Image)

/-- The instruction calls a constructor or a field initializer. -/
def builds (i : Instr) : Bool := (i.member?.bind image.member?).any (!·.isInherited)

/-- The shape behind an instruction that takes ordinary values. -/
def plainEffect? (i : Instr) (σ : List Slot) : Option (List Slot) :=
  (image.pops? i).bind fun n =>
    if n ≤ σ.length ∧ (σ.take n).all Slot.free then
      some (List.replicate i.pushes .plain ++ σ.drop n)
    else none

/-- The shape behind a call of the member of a construct that builds objects. The receiver is that of the
calling member, if it may build its `own` receiver, or, for a constructor, an object of the construct that
was just made. -/
def buildEffect? (own : Bool) (construct member : Nat) (σ : List Slot) : Option (List Slot) :=
  (image.pops? (.invoke construct member)).bind fun n =>
    if 0 < n ∧ (σ.take (n - 1)).all Slot.free then
      match σ.drop (n - 1), image.member? member with
      | .receiver :: σ, _ => if own then some (.plain :: σ) else none
      | .again :: .made k :: σ, some .constructor =>
        if k = construct then some (.plain :: .plain :: σ) else none
      | .made k :: σ, some .constructor => if k = construct then some (.plain :: σ) else none
      | _, _ => none
    else none

/-- The shape behind an instruction. The slot of the receiver is never assigned. -/
def effect? (own : Bool) (i : Instr) (σ : List Slot) : Option (List Slot) :=
  match i, σ with
  | .new k, σ => some (.made k :: σ)
  | .load 0, σ => some (.receiver :: σ)
  | .store 0, _ => none
  | .dup, .made k :: σ => some (.again :: .made k :: σ)
  | .invoke c m, σ =>
    if image.builds (.invoke c m) then image.buildEffect? own c m σ
    else image.plainEffect? (.invoke c m) σ
  | i, σ => if image.builds i then none else image.plainEffect? i σ

/-- The shape behind instructions one after the other. -/
def pass? (own : Bool) : List Instr → List Slot → Option (List Slot)
  | [], σ => some σ
  | i :: is, σ => (image.effect? own i σ).bind (pass? own is)

/-- The shape in front of an instruction of a chunk. -/
def shape? (code : Array Instr) (index : Nat) : Option (List Slot) :=
  image.pass? true (code.toList.take index) []

variable {image} {own : Bool}

@[simp] theorem pass?_nil (σ : List Slot) : image.pass? own [] σ = some σ := rfl

@[simp] theorem pass?_cons (i : Instr) (is : List Instr) (σ : List Slot) :
    image.pass? own (i :: is) σ = (image.effect? own i σ).bind (image.pass? own is) := rfl

theorem pass?_append (is js : List Instr) (σ : List Slot) :
    image.pass? own (is ++ js) σ = (image.pass? own is σ).bind (image.pass? own js) := by
  induction is generalizing σ with
  | nil => rfl
  | cons i is ih =>
    rw [List.cons_append, pass?_cons, pass?_cons, Option.bind_assoc]
    exact congrArg (Option.bind _) (funext ih)

theorem plainEffect?_length {i : Instr} {σ σ' : List Slot} (h : image.plainEffect? i σ = some σ') :
    ∃ n, image.pops? i = some n ∧ n ≤ σ.length ∧ σ'.length + n = σ.length + i.pushes := by
  obtain ⟨n, hn, h⟩ := Option.bind_eq_some_iff.mp h
  split at h
  · next hle =>
    cases h
    refine ⟨n, hn, hle.1, ?_⟩
    have := hle.1
    simp only [List.length_append, List.length_replicate, List.length_drop]
    omega
  · cases h

theorem buildEffect?_length {c m : Nat} {σ σ' : List Slot} (h : image.buildEffect? own c m σ = some σ') :
    ∃ n, image.pops? (.invoke c m) = some n ∧ n ≤ σ.length ∧ σ'.length + n = σ.length + 1 := by
  obtain ⟨n, hn, h⟩ := Option.bind_eq_some_iff.mp h
  split at h
  · next hpos =>
    have hlength : (σ.drop (n - 1)).length = σ.length - (n - 1) := List.length_drop
    have hpos := hpos.1
    refine ⟨n, hn, ?_⟩
    split at h
    · next heq =>
      split at h
      · cases h
        rw [heq] at hlength
        simp only [List.length_cons] at hlength ⊢
        omega
      · cases h
    · next heq _ =>
      split at h
      · cases h
        rw [heq] at hlength
        simp only [List.length_cons] at hlength ⊢
        omega
      · cases h
    · next heq _ =>
      split at h
      · cases h
        rw [heq] at hlength
        simp only [List.length_cons] at hlength ⊢
        omega
      · cases h
    · cases h
  · cases h

/-- The length of the stack changes as the table tells. -/
theorem effect?_length {i : Instr} {σ σ' : List Slot} (h : image.effect? own i σ = some σ') :
    ∃ n, image.pops? i = some n ∧ n ≤ σ.length ∧ σ'.length + n = σ.length + i.pushes := by
  unfold effect? at h
  split at h
  · cases h
    exact ⟨0, rfl, Nat.zero_le _, rfl⟩
  · cases h
    exact ⟨0, rfl, Nat.zero_le _, rfl⟩
  · cases h
  · cases h
    exact ⟨1, rfl, by simp, rfl⟩
  · split at h
    · exact buildEffect?_length h
    · exact plainEffect?_length h
  · split at h
    · cases h
    · exact plainEffect?_length h

theorem buildEffect?_own {c m : Nat} {σ σ' : List Slot} (h : image.buildEffect? false c m σ = some σ') :
    image.buildEffect? own c m σ = some σ' := by
  cases own with
  | false => exact h
  | true =>
    obtain ⟨n, hn, h⟩ := Option.bind_eq_some_iff.mp h
    rw [buildEffect?, hn, Option.bind_some]
    split at h
    · next hpos =>
      rw [if_pos hpos]
      split at h
      · cases h
      · exact h
      · exact h
      · cases h
    · cases h

/-- A member that may build its own receiver may do what others do. -/
theorem effect?_own {i : Instr} {σ σ' : List Slot} (h : image.effect? false i σ = some σ') :
    image.effect? own i σ = some σ' := by
  unfold effect? at h ⊢
  split at h
  · exact h
  · exact h
  · cases h
  · exact h
  · split at h
    · next hbuilds =>
      rw [if_pos hbuilds]
      exact buildEffect?_own h
    · next hbuilds => rwa [if_neg hbuilds]
  · exact h

/-- What some member may do, one that builds its own receiver may do. -/
theorem effect?_true {i : Instr} {σ σ' : List Slot} (h : image.effect? own i σ = some σ') :
    image.effect? true i σ = some σ' := by
  cases own with
  | false => exact effect?_own h
  | true => exact h

theorem pass?_own {is : List Instr} {σ σ' : List Slot} (h : image.pass? false is σ = some σ') :
    image.pass? own is σ = some σ' := by
  induction is generalizing σ with
  | nil => exact h
  | cons i is ih =>
    obtain ⟨σ₁, hi, his⟩ := Option.bind_eq_some_iff.mp h
    rw [pass?_cons, effect?_own hi, Option.bind_some, ih his]

end Image

/-! ## Code that computes values -/

/-- The code leaves `n` ordinary values on any stack. -/
def Image.Computes (image : Image) (n : Nat) (code : List Instr) : Prop :=
  ∀ σ, ∃ vs : List Slot, vs.length = n ∧ vs.all Slot.free = true ∧
    image.pass? false code σ = some (vs ++ σ)

namespace Image

variable {image : Image} {own : Bool} {n k : Nat} {code code' : List Instr} {i : Instr}

theorem plainEffect?_of_free {vs σ : List Slot} (hpops : image.pops? i = some n) (hlen : vs.length = n)
    (hfree : vs.all Slot.free = true) :
    image.plainEffect? i (vs ++ σ) = some (List.replicate i.pushes .plain ++ σ) := by
  subst hlen
  rw [plainEffect?, hpops, Option.bind_some, List.take_left, if_pos ⟨by simp, hfree⟩, List.drop_left]

theorem effect?_invoke {c m : Nat} {key : MemberKey} (hm : image.members[m]? = some key)
    (hkey : key.isInherited = false) (σ : List Slot) :
    image.effect? own (.invoke c m) σ = image.buildEffect? own c m σ := by
  have hm' : image.member? m = some key := hm
  have hbuilds : image.builds (.invoke c m) = true := by simp [builds, Instr.member?, hm', hkey]
  cases σ <;> simp [effect?, hbuilds]

/-- The receiver of a call that builds an object may be that of a calling member that builds it. -/
theorem buildEffect?_receiver {vs σ : List Slot} {c m : Nat}
    (hpops : image.pops? (.invoke c m) = some (n + 1)) (hlen : vs.length = n)
    (hfree : vs.all Slot.free = true) :
    image.buildEffect? true c m (vs ++ .receiver :: σ) = some (.plain :: σ) := by
  subst hlen
  rw [buildEffect?, hpops, Option.bind_some, Nat.add_sub_cancel, List.take_left,
    if_pos ⟨Nat.succ_pos _, hfree⟩, List.drop_left]
  rfl

/-- The receiver may be an object that was just made. -/
theorem buildEffect?_again {vs σ : List Slot} {c m : Nat}
    (hpops : image.pops? (.invoke c m) = some (n + 1)) (hlen : vs.length = n)
    (hfree : vs.all Slot.free = true) (hm : image.member? m = some .constructor) :
    image.buildEffect? own c m (vs ++ .again :: .made c :: σ) = some (.plain :: .plain :: σ) := by
  subst hlen
  rw [buildEffect?, hpops, Option.bind_some, Nat.add_sub_cancel, List.take_left,
    if_pos ⟨Nat.succ_pos _, hfree⟩, List.drop_left, hm]
  exact if_pos rfl

namespace Computes

theorem nil : image.Computes 0 [] := fun _ => ⟨[], rfl, rfl, rfl⟩

theorem append (h : image.Computes n code) (h' : image.Computes k code') :
    image.Computes (k + n) (code ++ code') := fun σ => by
  obtain ⟨vs, hlen, hfree, hpass⟩ := h σ
  obtain ⟨vs', hlen', hfree', hpass'⟩ := h' (vs ++ σ)
  refine ⟨vs' ++ vs, by simp [hlen, hlen'], by simp [hfree, hfree'], ?_⟩
  rw [pass?_append, hpass, Option.bind_some, hpass', List.append_assoc]

/-- An instruction that takes all the values and leaves one. -/
theorem snoc (h : image.Computes n code) (hpops : image.pops? i = some n) (hpushes : i.pushes = 1)
    (heffect : ∀ σ, image.effect? false i σ = image.plainEffect? i σ) :
    image.Computes 1 (code ++ [i]) := fun σ => by
  obtain ⟨vs, hlen, hfree, hpass⟩ := h σ
  refine ⟨[.plain], rfl, rfl, ?_⟩
  rw [pass?_append, hpass, Option.bind_some, pass?_cons, heffect, plainEffect?_of_free hpops hlen hfree,
    hpushes]
  rfl

theorem single (hpops : image.pops? i = some 0) (hpushes : i.pushes = 1)
    (heffect : ∀ σ, image.effect? false i σ = image.plainEffect? i σ) : image.Computes 1 [i] :=
  nil.snoc hpops hpushes heffect

theorem load (slot : Nat) : image.Computes 1 [.load slot] := by
  cases slot with
  | zero => exact fun _ => ⟨[.receiver], rfl, rfl, rfl⟩
  | succ slot => exact single rfl rfl fun σ => by cases σ <;> rfl

/-- The value of an assignment is kept. -/
theorem dup_store (h : image.Computes 1 code) {slot : Nat} (hslot : 0 < slot) :
    image.Computes 1 (code ++ [Instr.dup, .store slot]) := fun σ => by
  obtain ⟨slot, rfl⟩ := Nat.exists_eq_add_of_lt hslot
  obtain ⟨vs, hlen, hfree, hpass⟩ := h σ
  obtain ⟨v, rfl⟩ := List.length_eq_one_iff.mp hlen
  refine ⟨[.plain], rfl, rfl, ?_⟩
  rw [pass?_append, hpass, Option.bind_some]
  cases v with
  | plain | receiver => rfl
  | made | again => cases hfree

/-- The code of a call of a method. -/
theorem call (h : image.Computes n code) {m : Nat} {key : MemberKey}
    (hm : image.members[m]? = some key) (hkey : key.isInherited = true) (hmember : i.member? = some m)
    (hpops : image.pops? i = some n) : image.Computes 1 (code ++ [i]) := by
  have hbuilds : image.builds i = false := by
    have hm' : image.member? m = some key := hm
    simp [builds, hmember, hm', hkey]
  have hall : i.pushes = 1 ∧ ∀ σ, image.effect? false i σ = image.plainEffect? i σ := by
    cases i with
    | invoke c m =>
      exact ⟨rfl, fun σ => by cases σ <;> simp [effect?, hbuilds]⟩
    | callVirtual c m | virtualOrAny c m =>
      exact ⟨rfl, fun σ => by cases σ <;> simp [effect?, hbuilds]⟩
    | _ => cases hmember
  exact h.snoc hpops hall.1 hall.2

/-- The code that makes an object. -/
theorem new (h : image.Computes n code) {c m : Nat} (hm : image.members[m]? = some .constructor)
    (hpops : image.pops? (.invoke c m) = some (n + 1)) :
    image.Computes 1 ([Instr.new c, .dup] ++ code ++ [Instr.invoke c m, .pop]) := fun σ => by
  obtain ⟨vs, hlen, hfree, hpass⟩ := h (.again :: .made c :: σ)
  refine ⟨[.plain], rfl, rfl, ?_⟩
  have hfirst : image.pass? false [.new c, .dup] σ = some (.again :: .made c :: σ) := rfl
  rw [pass?_append, pass?_append, hfirst, Option.bind_some, hpass, Option.bind_some, pass?_cons,
    effect?_invoke hm rfl, buildEffect?_again hpops hlen hfree hm]
  rfl

end Computes

end Image

/-! ## Expressions -/

theorem slot_pos {names : List String} {x : String} {slot : Nat}
    (h : (slotsOf names).lookup x = some slot) : 0 < slot := by
  induction names with
  | nil => cases h
  | cons y ys ih =>
    rw [slotsOf, List.lookup_cons] at h
    split at h
    · cases h
      exact Nat.succ_pos _
    · exact ih h

section

variable {a : Analysis} {image : Image} {ρ : Ty} {cls : Nat}

mutual

/-- The code of a well-typed expression computes a value. -/
theorem expr_computes (W : WellTyped a) (A : Assembled a image) (hcls : cls < a.classes.size)
    {env : Environment} (henv : env.Proper a.classes cls ρ) :
    ∀ (e : Expr Typing) {τ : Ty} {code : List Instr}, Typed env e τ →
      Emits image.pools a.classes (LocalsRel.names env.visible) e code → image.Computes 1 code
  | .number x ν, τ, code, he, hc => by
    cases hc with
    | number hi =>
      cases hi with
      | zero | one | pooled _ => exact .single rfl rfl fun σ => by cases σ <;> rfl
  | .string c ν, τ, code, he, hc => by
    cases hc
    exact .single rfl rfl fun σ => by cases σ <;> rfl
  | .boolean b ν, τ, code, he, hc => by
    cases hc
    cases b <;> exact .single rfl rfl fun σ => by cases σ <;> rfl
  | .null ν, τ, code, he, hc => by
    cases hc
    exact .single rfl rfl fun σ => by cases σ <;> rfl
  | .name x ν, τ, code, he, hc => by
    cases hc
    exact .load _
  | .this ν, τ, code, he, hc => by
    cases hc
    exact .load 0
  | .base ν, τ, code, he, hc => by
    cases hc
    exact .load 0
  | .member e x ν, τ, code, he, hc => by
    cases he with
    | member he =>
      cases hc with
      | member hc =>
        exact (expr_computes W A hcls henv e he hc).snoc rfl rfl fun σ => by
          cases σ <;> rfl
  | .call e es ν', τ, code, he, hc => by
    cases e with
    | member o x ν =>
      cases he with
      | call ho hne hl _ hlen hes hfit =>
        cases hc with
        | call hc hτ hk hm hcs =>
          rw [ho.note_type] at hτ
          cases hτ
          rw [henv.inside.classes] at hl hfit
          obtain ⟨_, rfl⟩ := TypeId.ne_unit_of_construct hk
          have hid := ClassTable.lookupMethod_lt hl
          obtain ⟨owner, body, T⟩ := W.target A hne (ClassTable.isSubclass_refl hid) rfl hm hl
          have hargs : body.arguments = es.length + 1 := by
            rw [T.arguments, hlen, List.Forall₂.length_eq hfit]
          have hcode := (expr_computes W A hcls henv o ho hc).append
            (exprs_computes W A hcls henv es hlen hes hcs)
          refine hcode.call hm rfl (by cases o <;> rfl) ?_
          cases o <;> simp [Lower.call, Image.pops?, Lower.classOf, Ty.class?, T.resolve, hargs]
    | _ => cases he
  | .new c es ν, τ, code, he, hc => by
    cases he with
    | new hfind hctor _ hlen hes hfit =>
      cases hc with
      | new hfind' hk hm hcs =>
        rw [henv.inside.classes] at hfind hctor hfit
        cases hfind.symm.trans hfind'
        obtain ⟨hne, rfl⟩ := TypeId.ne_unit_of_construct hk
        obtain ⟨r, hr, hmeth⟩ := Option.bind_eq_some_iff.mp hctor
        obtain ⟨body, hres, _, hargs⟩ := resolve_method W A (ClassTable.lt_of_record hr) hne hm
          (by simp) (ClassTable.lookupMethod_own hr hmeth)
        refine (exprs_computes W A hcls henv es hlen hes hcs).new hm ?_
        simp [Image.pops?, hres, hargs, hlen, List.Forall₂.length_eq hfit]
  | .assign e v ν', τ, code, he, hc => by
    cases e with
    | name x ν =>
      cases he with
      | assignName _ hv =>
        cases hc with
        | assignName hx hc => exact (expr_computes W A hcls henv v hv hc).dup_store (slot_pos hx)
    | member o x ν =>
      cases he with
      | assignMember ho _ _ _ _ hv =>
        cases hc with
        | assignMember hc _ _ hc' =>
          exact ((expr_computes W A hcls henv o ho hc).append (expr_computes W A hcls henv v hv hc')).snoc
            rfl rfl fun σ => by cases σ <;> rfl
    | _ => cases he
  | .binary op l r ν, τ, code, he, hc => by
    cases he with
    | @binary _ _ _ _ τ₁ _ id _ _ hl hr hop hlook =>
      cases hc with
      | primitive hc hc' =>
        exact ((expr_computes W A hcls henv l hl hc).append (expr_computes W A hcls henv r hr hc')).snoc rfl rfl fun σ => by cases σ <;> rfl
      | binary hc hc' hτ _ _ hk hm =>
        rw [hl.note_type] at hτ
        cases hτ
        rw [henv.inside.classes] at hlook
        obtain ⟨hne, rfl⟩ := TypeId.ne_unit_of_construct hk
        have hlt := BoundsLemmas.classOf_lt W (W.typed_names henv.inside hcls henv.named hl)
        have hsub : a.classes.isSubclass (Lower.classOf τ₁) id = true := by
          unfold OperatorClass at hop
          split at hop
          · exact hop ▸ W.subclass_any hlt hne
          · obtain ⟨rfl, _⟩ := hop
            exact ClassTable.isSubclass_refl hlt
        obtain ⟨owner, body, T⟩ := W.target A hne hsub rfl hm hlook
        have hargs : body.arguments = 2 := by rw [T.arguments, (W.operator_params hlook).1 op rfl]
        have hcode := (expr_computes W A hcls henv l hl hc).append (expr_computes W A hcls henv r hr hc')
        split
        · exact hcode.call hm rfl rfl (by simp [Image.pops?, T.resolve, hargs])
        · exact hcode.call hm rfl rfl (by simp [Image.pops?, T.resolve, hargs])
  | .unary op e ν, τ, code, he, hc => by
    cases he with
    | unary he hne hlook =>
      cases hc with
      | unaryPrimitive hc =>
        exact (expr_computes W A hcls henv e he hc).snoc rfl rfl fun σ => by
          cases σ <;> rfl
      | unary hc hτ _ hk hm =>
        rw [he.note_type] at hτ
        cases hτ
        rw [henv.inside.classes] at hlook
        obtain ⟨_, rfl⟩ := TypeId.ne_unit_of_construct hk
        have hid := ClassTable.lookupMethod_lt hlook
        obtain ⟨owner, body, T⟩ := W.target A hne (ClassTable.isSubclass_refl hid) rfl hm hlook
        have hargs : body.arguments = 1 := by rw [T.arguments, (W.operator_params hlook).2 op rfl]; rfl
        refine (expr_computes W A hcls henv e he hc).call hm rfl rfl ?_
        simp [Image.pops?, Lower.classOf, Ty.class?, T.resolve, hargs]
  | .assert e ν, τ, code, he, hc => by
    cases he with
    | assert he =>
      cases hc with
      | assert hc =>
        exact (expr_computes W A hcls henv e he hc).snoc rfl rfl fun σ => by
          cases σ <;> rfl
  | .instanceTest e w ν, τ, code, he, hc => by
    cases he with
    | instanceTest he =>
      cases hc with
      | nullTest hc | instanceTest hc =>
        exact (expr_computes W A hcls henv e he hc).snoc rfl rfl fun σ => by
          cases σ <;> rfl
  | .cast e w ν, τ, code, he, hc => by
    cases he with
    | cast he =>
      cases hc with
      | cast hc =>
        exact (expr_computes W A hcls henv e he hc).snoc rfl rfl fun σ => by
          cases σ <;> rfl

theorem exprs_computes (W : WellTyped a) (A : Assembled a image) (hcls : cls < a.classes.size)
    {env : Environment} (henv : env.Proper a.classes cls ρ) :
    ∀ (es : List (Expr Typing)) {τs : List Ty} {codes : List (List Instr)}, es.length = τs.length →
      (∀ p ∈ es.zip τs, Typed env p.1 p.2) →
      List.Forall₂ (Emits image.pools a.classes (LocalsRel.names env.visible)) es codes →
      image.Computes es.length codes.flatten
  | [], τs, codes, _, _, hcs => by
    cases hcs
    exact .nil
  | e :: es, τs, codes, hlen, hes, hcs => by
    match τs with
    | τ :: τs =>
      rw [List.zip_cons_cons, List.forall_mem_cons] at hes
      cases hcs with
      | cons hc hcs =>
        rw [List.flatten_cons]
        exact (expr_computes W A hcls henv e hes.1 hc).append
          (exprs_computes W A hcls henv es (Nat.succ.inj hlen) hes.2 hcs)

end

end

end ClassLang
