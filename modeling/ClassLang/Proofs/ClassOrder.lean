import ClassLang.Proofs.Compilation
import ClassLang.Proofs.Initialization
import ClassLang.Proofs.Lowerable
import ClassLang.Proofs.ReorderedCheck
import ClassLang.Proofs.RenumberedEvaluation

/-!
# The order of the classes

The classes of a program can be written in any order (`Program.order_irrelevant`): the errors are the same
up to order, the program has an image in the one order exactly if it has one in the other, and the runs do
the same. The images are not: indices of classes, members and constants follow the order. So images are
not compared; they run like the trees, and the trees evaluate alike (`Analysis.Renumbers.evaluate`).
-/

namespace ClassLang

variable {ν μ : Type} {π : Equiv.Perm Nat}

/-! ## Limits -/

mutual

theorem Stmt.slots_map (f : ν → μ) : ∀ s : Stmt ν, (s.map f).slots = s.slots
  | .define .. | .return .. | .expression .. => rfl
  | .ifThen _ branch _ | .while _ branch _ => by simp only [map, slots, branch.slots_map f]
  | .ifElse _ branch otherwise _ => by
    simp only [map, slots, branch.slots_map f, otherwise.slots_map f]
  | .block statements _ => by simp only [map, slots, Stmt.slotsList_map f statements]

theorem Stmt.slotsList_map (f : ν → μ) : ∀ ss : List (Stmt ν), slotsList (mapList f ss) = slotsList ss
  | [] => rfl
  | s :: ss => by
    have hbound : (s.map f).bound = s.bound := by cases s <;> rfl
    simp only [mapList, slotsList, s.slots_map f, hbound, Stmt.slotsList_map f ss]

end

theorem MemberDecl.slots_map (f : ν → μ) (m : MemberDecl ν) : (m.map f).slots = m.slots := by
  cases m with
  | field d => rfl
  | method d => simp only [map, MethodDecl.map, slots, Stmt.slots_map]
  | constructor d => simp only [map, ConstructorDecl.map, slots, Stmt.slots_map]

section

variable {t t' : ClassTable} (h : t.Renumbers π t')

include h

theorem Expr.fieldUsed_renumber (e : Expr Typing) :
    (e.map (Typing.renumber π)).fieldUsed? t' = (e.fieldUsed? t).map (Field.renumber π) := by
  cases e with
  | member o x n =>
    obtain ⟨span, type⟩ := n
    cases type with
    | none => rfl
    | some τ =>
      simp only [map, Typing.renumber, Option.map_some, fieldUsed?]
      rw [o.fieldFound_renumber h, Option.map_map, Option.map_map]
      rfl
  | _ => rfl

theorem Expr.needsUnit_renumber (e : Expr Typing) :
    (e.map (Typing.renumber π)).NeedsUnit t' ↔ e.NeedsUnit t := by
  cases e with
  | binary op left right n =>
    have hoption : (Ty.option TypeId.unit).renumber π = .option TypeId.unit :=
      congrArg Ty.option h.builtin.unit
    simp only [map, NeedsUnit, note_map, Typing.renumber]
    conv_lhs => rw [← hoption, ← Option.map_some]
    exact (Option.map_injective Ty.renumber_injective).eq_iff
  | instanceTest e w n | cast e w n =>
    simp only [map, NeedsUnit, h.resolveType_eq]
    cases t.resolveType w with
    | error e => simp [Functor.map, Except.map]
    | ok τ => simp [Functor.map, Except.map, h.builtin.eq_unit, Ty.renumber_eq_null]
  | _ => rfl

theorem Expr.lowerable_renumber (e : Expr Typing) :
    (e.map (Typing.renumber π)).Lowerable t' ↔ e.Lowerable t := by
  rw [lowerable_iff, lowerable_iff, needsUnit_renumber h, fieldUsed_renumber h]
  simp [Field.renumber]

theorem MemberDecl.lowerable_renumber (m : MemberDecl Typing) :
    (m.map (Typing.renumber π)).Lowerable t' ↔ m.Lowerable t := by
  rw [lowerable_iff, lowerable_iff, slots_map, nodes_map, List.forall_mem_map]
  simp only [Expr.lowerable_renumber h]

theorem ClassDecl.lowerable_renumber (id : Nat) (d : ClassDecl Typing) :
    (d.map (Typing.renumber π)).Lowerable t' (π id) ↔ d.Lowerable t id := by
  rw [lowerable_iff, lowerable_iff, fields_map, List.forall_mem_map, map, List.forall_mem_map]
  simp only [MemberDecl.lowerable_renumber h, FieldDecl.map, h.lookupField_eq, Option.isSome_map]
  refine and_congr_right fun _ => forall₂_congr fun fd _ => imp_congr_right fun _ => ?_
  cases t.lookupField? id fd.name.name with
  | none => simp
  | some found =>
    obtain ⟨owner, f⟩ := found
    simp [Field.renumber]

end

/-! ## Images and runs -/

namespace Analysis.Renumbers

variable {σ : Equiv.Perm Nat} {a b : Analysis} {image image' : Image} {console : Console}

/-- A program that can be lowered can be lowered in the other order. -/
theorem lowerable (h : a.Renumbers σ b) (hl : a.Lowerable) : b.Lowerable := by
  intro j d' hd'
  obtain ⟨i, rfl⟩ := σ.surjective j
  rw [h.program] at hd'
  obtain ⟨d, hd, rfl⟩ := Option.map_eq_some_iff.mp hd'
  rw [← behind_add]
  exact (d.lowerable_renumber h.classes _).mpr (hl i d hd)

/-- A program that has an image has one in the other order. -/
theorem exists_image (h : a.Renumbers σ b) (W : WellTyped a) (W' : WellTyped b)
    (himage : Lower.image a = .ok image) : ∃ image', Lower.image b = .ok image' := by
  obtain ⟨id, E⟩ := (Lower.image_assembled himage).entry
  obtain ⟨hne, _⟩ := TypeId.ne_unit_of_construct E.construct
  have hl : a.Lowerable :=
    (Lower.image_of_entry W E.found E.notBuiltin hne E.noParams).1.mp ⟨image, himage⟩
  have hfound : b.classes.find? entryClass = some (behind TypeId.first σ id) := by
    rw [h.classes.find, E.found, Option.map_some]
  have hparams : ∀ m, b.classes.constructor? (behind TypeId.first σ id) = some m → m.params = [] := by
    intro m' hm'
    rw [h.classes.constructor_eq] at hm'
    obtain ⟨m, hm, rfl⟩ := Option.map_eq_some_iff.mp hm'
    rw [Method.renumber, E.noParams m hm, List.map_nil]
  exact (Lower.image_of_entry W' hfound ((h.classes.isBuiltin_eq id).trans E.notBuiltin)
    (h.classes.builtin.eq_unit.not.mpr hne) hparams).1.mpr (h.lowerable hl)

end Analysis.Renumbers

namespace CompilationLemmas

variable {a b : Analysis} {image image' : Image} {console : Console}

/-- A run ends, or it goes on for ever. -/
theorem ends_or_diverges (W : WellTyped a) (A : Assembled a image) :
    (∃ e, image.Ends console e) ∨ image.Diverges console := by
  by_cases h : ∃ k e, (image.run k console).ending = some e
  · obtain ⟨k, e, he⟩ := h
    exact .inl ⟨e, (ends_of_run W A he).2⟩
  · refine .inr fun bound => ?_
    rcases run_cases W A bound console with ⟨m, hm, _⟩ | ⟨e, he, _⟩
    · exact ⟨m, hm⟩
    · exact absurd ⟨bound, e, he⟩ h

theorem not_diverges {e : Ending} (h : image.Ends console e) : ¬ image.Diverges console := by
  intro hd
  obtain ⟨k, hk⟩ := h
  obtain ⟨m, hm⟩ := hd k
  have hend := (hk k).1 (Nat.le_refl k)
  rw [hm] at hend
  cases hend

/-- Where programs evaluate alike, their runs end alike. -/
theorem ends_of_evaluate_eq (W : WellTyped a) (A : Assembled a image) (W' : WellTyped b)
    (A' : Assembled b image') (heval : ∀ n, b.evaluate n console = a.evaluate n console) {e : Ending}
    (h : image.Ends console e) : image'.Ends console e := by
  obtain ⟨k, hk⟩ := h
  obtain ⟨⟨n, hn⟩, _⟩ := ends_of_run W A ((hk k).1 (Nat.le_refl k))
  have he := (heval n).trans ((hn n).1 (Nat.le_refl n))
  obtain ⟨k', hk'⟩ := ending_of_evaluate W' A' he
  exact (ends_of_run W' A' hk').2

end CompilationLemmas

open CompilationLemmas

/-- The order of the classes does not matter. If their names are different and do not form a cycle, the
program with its classes in another order has the same errors up to order; and if the program has an image,
so has the other one, and on every input the runs of the two end alike, with the same output, the same
input left and the same result or fault, or both go on for ever. -/
theorem Program.order_irrelevant {p q : Program Span} (hperm : p.classes.Perm q.classes)
    (hnames : (p.classes.map (·.name.name)).Nodup) (hacyclic : Hierarchy.Acyclic p.classes) :
    (Check.errors q).Perm (Check.errors p) ∧
    ∀ a image, Check.program p = .ok a → Lower.image a = .ok image →
      ∃ b image', Check.program q = .ok b ∧ Lower.image b = .ok image' ∧
        ∀ console, (∃ e, image.Ends console e ∧ image'.Ends console e) ∨
          (image.Diverges console ∧ image'.Diverges console) := by
  refine ⟨Check.errors_perm hperm hnames hacyclic, fun a image hp himage => ?_⟩
  obtain ⟨σ, b, hq, hclasses, hprogram⟩ := Check.program_renumber hperm hnames hacyclic hp
  have h : a.Renumbers σ b := ⟨hclasses, hprogram⟩
  have W := Check.program_wellTyped hp
  have W' := Check.program_wellTyped hq
  obtain ⟨image', himage'⟩ := h.exists_image W W' himage
  have A := Lower.image_assembled himage
  have A' := Lower.image_assembled himage'
  refine ⟨b, image', hq, himage', fun console => ?_⟩
  have heval (n : Nat) := h.evaluate W.unit_parent n console
  rcases @ends_or_diverges a image console W A with ⟨e, he⟩ | hdiverges
  · exact .inl ⟨e, he, ends_of_evaluate_eq W A W' A' heval he⟩
  · rcases @ends_or_diverges b image' console W' A' with ⟨e, he⟩ | hdiverges'
    · have he' := ends_of_evaluate_eq W' A' W A (fun n => (heval n).symm) he
      exact absurd hdiverges (not_diverges he')
    · exact .inr ⟨hdiverges, hdiverges'⟩

/-- A program whose entry class stands before the one that it inherits from. -/
def parentLast : String :=
  "class Main : Greeter\n\x7b\n public new()\n \x7b\n this.out(this.greet(\"you\"))\n \x7d\n\x7d\n" ++
    "class Greeter : IO\n\x7b\n public greet(name: string): string = \"hello \" + name\n\x7d\n"

/-- How far the classes of that program are from the root. -/
def parentLastRank (name : String) : Nat :=
  if name = "Main" then 2 else if name = "Greeter" then 1 else 0

/-- With the parent first, the entry class has another index in the image, and the run is the same. -/
theorem parentLast_order_irrelevant : ∃ p a b image image', Program.ofSource parentLast = .ok p ∧
    (p.classes.map (·.name.name)).Nodup ∧ Hierarchy.Acyclic p.classes ∧
    Check.program p = .ok a ∧ Lower.image a = .ok image ∧
    Check.program ⟨p.classes.reverse, p.span⟩ = .ok b ∧ Lower.image b = .ok image' ∧
    image.main ≠ image'.main ∧ (image.run 100 (.ofText "")).console.output = "hello you\n" ∧
    ((∃ e, image.Ends (.ofText "") e ∧ image'.Ends (.ofText "") e) ∨
      (image.Diverges (.ofText "") ∧ image'.Diverges (.ofText ""))) := by
  have hrun : ((Program.ofSource parentLast).toOption.bind fun p =>
      (Check.program p).toOption.bind fun a => (Lower.image a).toOption.bind fun image =>
        (Check.program ⟨p.classes.reverse, p.span⟩).toOption.bind fun b =>
          (Lower.image b).toOption.map fun image' =>
            (decide ((p.classes.map (·.name.name)).Nodup),
              decide (∀ d ∈ p.classes, ∀ parent ∈ d.parent,
                parentLastRank parent.name < parentLastRank d.name.name),
              decide (image.main ≠ image'.main), (image.run 100 (.ofText "")).console.output)) =
      some (true, true, true, "hello you\n") := by decide +kernel
  simp only [Option.bind_eq_some_iff, Option.map_eq_some_iff, toOption_eq_some, Prod.mk.injEq,
    decide_eq_true_eq] at hrun
  obtain ⟨p, hp, a, hcheck, image, himage, b, hcheck', image', himage', hnames, hrank, hmain, hout⟩ := hrun
  have hacyclic := Hierarchy.acyclic_of_rank parentLastRank hrank
  obtain ⟨_, hall⟩ := @Program.order_irrelevant p ⟨p.classes.reverse, p.span⟩
    (List.reverse_perm p.classes).symm hnames hacyclic
  obtain ⟨b₁, image₁, hcheck₁, himage₁, hruns⟩ := hall a image hcheck himage
  obtain rfl : b = b₁ := Except.ok.inj (hcheck'.symm.trans hcheck₁)
  obtain rfl : image' = image₁ := Except.ok.inj (himage'.symm.trans himage₁)
  exact ⟨p, a, b, image, image', hp, hnames, hacyclic, hcheck, himage, hcheck', himage', hmain, hout,
    hruns _⟩

end ClassLang
