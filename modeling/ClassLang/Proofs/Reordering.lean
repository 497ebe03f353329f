import ClassLang.Proofs.Renumbering
import Mathlib.Data.Fintype.EquivFin
import Mathlib.Data.List.Nodup
import Mathlib.Logic.Relation
import Mathlib.Logic.Equiv.Basic

/-!
# Classes in another order

If the classes of a text are written in another order, they get other indices, and nothing else of the
hierarchy changes: the tables are renumberings of each other, the same classes are left out, and the
errors are the same up to order (`build_renumbers`).

Each stage is brought into a form that does not depend on the order. Under different names, every class
is declared at its own place (`declareAll_distinct`) and linked as if it were the only one
(`linkAll_each`). The search for cycles does depend on the order, since it cuts the first link that
closes a cycle; so the names must not form one (`Acyclic`), and then it cuts nothing
(`cutCycles_rooted`).
-/

namespace ClassLang

/-! ## Positions in a list -/

/-- The numbers from `n` on are permuted, those below stay where they are. -/
def behind (n : Nat) (σ : Equiv.Perm Nat) : Equiv.Perm Nat where
  toFun i := if i < n then i else n + σ (i - n)
  invFun i := if i < n then i else n + σ.symm (i - n)
  left_inv i := by
    by_cases hi : i < n
    · simp [hi]
    · simp only [if_neg hi, if_neg (Nat.not_lt_of_le (Nat.le_add_right n _)), Nat.add_sub_cancel_left,
        Equiv.symm_apply_apply]
      omega
  right_inv i := by
    by_cases hi : i < n
    · simp [hi]
    · simp only [if_neg hi, if_neg (Nat.not_lt_of_le (Nat.le_add_right n _)), Nat.add_sub_cancel_left,
        Equiv.apply_symm_apply]
      omega

theorem behind_of_lt {n i : Nat} {σ : Equiv.Perm Nat} (h : i < n) : behind n σ i = i := if_pos h

theorem behind_add {n i : Nat} {σ : Equiv.Perm Nat} : behind n σ (n + i) = n + σ i := by
  show (if n + i < n then n + i else n + σ (n + i - n)) = n + σ i
  rw [if_neg (Nat.not_lt_of_le (Nat.le_add_right n i)), Nat.add_sub_cancel_left]

theorem getElem_behind {α : Type} {l l' : List α} {σ : Equiv.Perm Nat} (h : ∀ i, l'[σ i]? = l[i]?)
    (as : List α) (i : Nat) : (as ++ l')[behind as.length σ i]? = (as ++ l)[i]? := by
  by_cases hi : i < as.length
  · rw [behind_of_lt hi, List.getElem?_append_left hi, List.getElem?_append_left hi]
  · obtain ⟨j, rfl⟩ := Nat.exists_eq_add_of_le (Nat.le_of_not_lt hi)
    rw [behind_add, List.getElem?_append_right (Nat.le_add_right _ _),
      List.getElem?_append_right (Nat.le_add_right _ _), Nat.add_sub_cancel_left,
      Nat.add_sub_cancel_left, h]

/-- Where the entries of a list are in a permuted one. -/
theorem exists_positions {α : Type} {l l' : List α} (h : l.Perm l') :
    ∃ σ : Equiv.Perm Nat, ∀ i, l'[σ i]? = l[i]? := by
  induction h with
  | nil => exact ⟨Equiv.refl _, fun _ => rfl⟩
  | cons a _ ih =>
    obtain ⟨σ, hσ⟩ := ih
    exact ⟨behind 1 σ, getElem_behind hσ [a]⟩
  | swap a b l =>
    refine ⟨Equiv.swap 0 1, fun i => ?_⟩
    match i with
    | 0 => rw [Equiv.swap_apply_left]; rfl
    | 1 => rw [Equiv.swap_apply_right]; rfl
    | i + 2 => rw [Equiv.swap_apply_of_ne_of_ne (Nat.succ_ne_zero _) (by omega)]; rfl
  | trans _ _ ih ih' =>
    obtain ⟨σ, hσ⟩ := ih
    obtain ⟨σ', hσ'⟩ := ih'
    exact ⟨σ.trans σ', fun i => (hσ' (σ i)).trans (hσ i)⟩

/-! ## Declaring -/

namespace Hierarchy

open HierarchyLemmas

/-- The class is declared: its name is not that of a built-in one. -/
def isFresh (t : ClassTable) (d : ClassDecl Span) : Bool := (t.find? d.name.name).isNone

/-- The built-in classes, and behind them some more without members. -/
def declaredTable (ds : List (ClassDecl Span)) : ClassTable :=
  ⟨ClassTable.standard.records ++ ds.map fun d => .empty d.name.name d.name.span⟩

/-- Classes of different names are declared if their names are not taken. -/
theorem declareAll_distinct {t : ClassTable} {ds : List (ClassDecl Span)}
    (h : (ds.map (·.name.name)).Nodup) :
    (declareAll t ds).classes =
      (List.range' t.size (ds.filter (isFresh t)).length).zip (ds.filter (isFresh t)) ∧
    (declareAll t ds).table.records =
      t.records ++ (ds.filter (isFresh t)).map (fun d => .empty d.name.name d.name.span) ∧
    (declareAll t ds).errors = (ds.filter (!isFresh t ·)).map fun d =>
      ⟨.duplicateDeclaration d.name.name, d.name.span⟩ := by
  induction ds generalizing t with
  | nil => simp [declareAll]
  | cons d ds ih =>
    rw [List.map_cons, List.nodup_cons] at h
    cases hfind : t.find? d.name.name with
    | some id =>
      obtain ⟨hclasses, hrecords, herrors⟩ := @ih t h.2
      have hdeclare : t.declare d.name = .error ⟨.duplicateDeclaration d.name.name, d.name.span⟩ := by
        simp only [ClassTable.declare, hfind]
      simp only [declareAll, hdeclare, isFresh, hfind, Option.isNone_some, Bool.not_false,
        List.filter_cons, Bool.false_eq_true, ↓reduceIte, List.map_cons]
      exact ⟨hclasses, hrecords, congrArg _ herrors⟩
    | none =>
      have hdeclare : t.declare d.name =
          .ok (t.size, ⟨t.records ++ [.empty d.name.name d.name.span]⟩) := by
        simp only [ClassTable.declare, hfind]
      obtain ⟨hclasses, hrecords, herrors⟩ :=
        @ih ⟨t.records ++ [.empty d.name.name d.name.span]⟩ h.2
      have hfresh : ∀ e ∈ ds,
          isFresh ⟨t.records ++ [.empty d.name.name d.name.span]⟩ e = isFresh t e := by
        intro e he
        have hne : d.name.name ≠ e.name.name := fun heq => h.1 (heq ▸ List.mem_map_of_mem he)
        simp [isFresh, ClassTable.find?, ClassRecord.empty, List.findIdx?_append, hne]
      have hsize : ClassTable.size ⟨t.records ++ [.empty d.name.name d.name.span]⟩ = t.size + 1 := by
        simp [ClassTable.size]
      rw [List.filter_congr hfresh] at hclasses hrecords
      rw [List.filter_congr fun e he => congrArg (!·) (hfresh e he)] at herrors
      simp only [declareAll, hdeclare, isFresh, hfind, Option.isNone_none, Bool.not_true,
        List.filter_cons, Bool.false_eq_true, ↓reduceIte, List.map_cons, List.length_cons,
        List.range'_succ, List.zip_cons_cons]
      refine ⟨?_, ?_, herrors⟩
      · rw [hclasses, hsize]
      · rw [hrecords, List.append_assoc, List.singleton_append]

theorem standard_length : ClassTable.standard.records.length = TypeId.first := by decide +kernel

section

variable {ds es : List (ClassDecl Span)}

theorem declared_names (hnames : (ds.map (·.name.name)).Nodup)
    (hfresh : ∀ d ∈ ds, isFresh .standard d = true) :
    ((declaredTable ds).records.map (·.name)).Nodup := by
  have hstandard : (ClassTable.standard.records.map (·.name)).Nodup := by decide +kernel
  have hapart : ∀ r ∈ ClassTable.standard.records, ∀ d ∈ ds, d.name.name ≠ r.name := by
    intro r hr d hd heq
    have hnone := hfresh d hd
    simp only [isFresh, ClassTable.find?, Option.isNone_iff_eq_none, List.findIdx?_eq_none_iff] at hnone
    simpa [heq] using hnone r hr
  rw [declaredTable, List.map_append, List.map_map]
  refine List.nodup_append.mpr ⟨hstandard, hnames, ?_⟩
  intro _ hname _ hname' heq
  obtain ⟨r, hr, rfl⟩ := List.mem_map.mp hname
  obtain ⟨d, hd, rfl⟩ := List.mem_map.mp hname'
  exact hapart r hr d hd heq.symm

/-- The ids in a type are those of built-in classes. -/
theorem standard_renumber {π : Equiv.Perm Nat} (h : KeepsBuiltin π) :
    ∀ r ∈ ClassTable.standard.records, r.renumber π = r := by
  have hty : ∀ τ : Ty, (τ.class?.all (· < TypeId.first)) = true → τ.renumber π = τ := by
    intro τ hτ
    cases τ with
    | null => rfl
    | plain id | option id => simp [Ty.renumber, h id (by simpa [Ty.class?] using hτ)]
  have hall : ∀ r ∈ ClassTable.standard.records, r.parent.all (· < TypeId.first) = true ∧
      (∀ f ∈ r.fields, f.type.class?.all (· < TypeId.first) = true) ∧
      ∀ m ∈ r.methods, (∀ τ ∈ m.params, τ.class?.all (· < TypeId.first) = true) ∧
        m.returns.class?.all (· < TypeId.first) = true := by decide +kernel
  intro r hr
  obtain ⟨hparent, hfields, hmethods⟩ := hall r hr
  have hself {α : Type} {f : α → α} {l : List α} (hl : ∀ a ∈ l, f a = a) : l.map f = l :=
    (List.map_congr_left hl).trans (List.map_id l)
  have hparent' : r.parent.map π = r.parent := by
    cases hp : r.parent with
    | none => rfl
    | some p => simp [h p (by simpa [hp] using hparent)]
  have hfields' : r.fields.map (Field.renumber π) = r.fields := hself fun f hf => by
    rw [Field.renumber, hty _ (hfields f hf)]
  have hmethods' : r.methods.map (Method.renumber π) = r.methods := hself fun m hm => by
    rw [Method.renumber, hself fun τ hτ => hty τ ((hmethods m hm).1 τ hτ), hty _ (hmethods m hm).2]
  rw [ClassRecord.renumber, hparent', hfields', hmethods']

/-- The declared classes in another order are the same classes at other indices. -/
theorem declared_renumbers (hperm : ds.Perm es) (hnames : (ds.map (·.name.name)).Nodup)
    (hfresh : ∀ d ∈ ds, isFresh .standard d = true) : ∃ σ : Equiv.Perm Nat,
    (∀ i, es[σ i]? = ds[i]?) ∧
      (declaredTable ds).Renumbers (behind TypeId.first σ) (declaredTable es) := by
  obtain ⟨σ, hσ⟩ := exists_positions hperm
  have hkeeps : KeepsBuiltin (behind TypeId.first σ) := fun _ => behind_of_lt
  have hsame (id : Nat) : (declaredTable es).record? (behind TypeId.first σ id) =
      (declaredTable ds).record? id := by
    have hempty : ∀ i, (es.map fun d => ClassRecord.empty d.name.name d.name.span)[σ i]? =
        (ds.map fun d => ClassRecord.empty d.name.name d.name.span)[i]? := by
      intro i
      rw [List.getElem?_map, List.getElem?_map, hσ]
    rw [← standard_length]
    exact getElem_behind hempty ClassTable.standard.records id
  have hnames' := declared_names hnames hfresh
  have hnames'' : ((declaredTable es).records.map (·.name)).Nodup :=
    declared_names ((hperm.map _).nodup hnames) fun d hd => hfresh d (hperm.mem_iff.mpr hd)
  refine ⟨σ, hσ, hkeeps, ?_, fun name => ?_, fun id => ?_⟩
  · simp [declaredTable, ClassTable.size, hperm.length_eq]
  · refine Option.ext fun id => ?_
    rw [find_iff hnames'', Option.map_eq_some_iff]
    constructor
    · rintro ⟨r, hr, hname⟩
      refine ⟨(behind TypeId.first σ).symm id, (find_iff hnames').mpr ⟨r, ?_, hname⟩,
        Equiv.apply_symm_apply _ _⟩
      rw [← hsame, Equiv.apply_symm_apply, hr]
    · rintro ⟨id, hfind, rfl⟩
      rw [hsame]
      exact (find_iff hnames').mp hfind
  · rw [hsame]
    cases hr : (declaredTable ds).record? id with
    | none => rfl
    | some r =>
      rcases List.mem_append.mp (List.mem_of_getElem? hr) with hstandard | huser
      · rw [Option.map_some, standard_renumber hkeeps r hstandard]
      · obtain ⟨d, _, rfl⟩ := List.mem_map.mp huser
        rfl

end

/-! ## Linking -/

section

variable {π : Equiv.Perm Nat} {t t' : ClassTable} (h : t.Renumbers π t')

include h

theorem parentOf_renumber (d : ClassDecl Span) : parentOf t' d = π <$> parentOf t d := by
  unfold parentOf
  cases d.parent with
  | none => exact congrArg Except.ok h.builtin.any.symm
  | some name =>
    simp only [h.resolve_eq, bind_map_left, map_bind, h.name_eq]
    refine bind_congr fun id => ?_
    have hsealed : (t'.record? (π id)).any (·.isSealed) = (t.record? id).any (·.isSealed) := by
      rw [h.record]
      cases t.record? id <;> rfl
    simp only [hsealed]
    split <;> rfl

theorem linkOf_renumber (d : ClassDecl Span) : linkOf t' d = π (linkOf t d) := by
  simp only [linkOf, parentOf_renumber h]
  cases parentOf t d with
  | ok p => rfl
  | error e => exact h.builtin.any.symm

/-- The class at another index. -/
def moved (π : Equiv.Perm Nat) (c : TypeId × ClassDecl Span) : TypeId × ClassDecl Span := (π c.1, c.2)

/-- Linking classes in another order and at other indices. -/
theorem linkAll_renumbers {cs cs' : List (TypeId × ClassDecl Span)} (hnodup : (cs.map (·.1)).Nodup)
    (hperm : cs'.Perm (cs.map (moved π))) :
    (linkAll t cs).1.Renumbers π (linkAll t' cs').1 ∧
      (linkAll t' cs').2.Perm ((linkAll t cs).2.map fun b => (π b.1, b.2)) := by
  have hids : (cs'.map (·.1)).Perm ((cs.map (·.1)).map π) := by
    simpa [moved, Function.comp_def] using hperm.map (·.1)
  have hnodup' : (cs'.map (·.1)).Nodup := hids.symm.nodup (List.Nodup.map π.injective hnodup)
  obtain ⟨hsize, hfind, hother, heach, hbad⟩ := @linkAll_each t cs hnodup
  obtain ⟨hsize', hfind', hother', heach', hbad'⟩ := @linkAll_each t' cs' hnodup'
  refine ⟨⟨h.builtin, by rw [hsize, hsize', h.size], fun name => by rw [hfind, hfind', h.find],
    fun id => ?_⟩, ?_⟩
  · by_cases hid : id ∈ cs.map (·.1)
    · obtain ⟨c, hc, rfl⟩ := List.mem_map.mp hid
      have hc' : moved π c ∈ cs' := hperm.mem_iff.mpr (List.mem_map_of_mem hc)
      have hlinked := heach' _ hc'
      simp only [moved] at hlinked
      rw [hlinked, heach c hc, h.record, linkOf_renumber h, Option.map_map, Option.map_map]
      rfl
    · have hid' : π id ∉ cs'.map (·.1) := by
        rw [hids.mem_iff, List.mem_map_of_injective π.injective]
        exact hid
      rw [hother' _ hid', hother id hid, h.record]
  · have hmoved (c : TypeId × ClassDecl Span) :
        badLink? t' (moved π c) = (badLink? t c).map fun b => (π b.1, b.2) := by
      simp only [badLink?, moved, parentOf_renumber h]
      cases parentOf t c.2 <;> rfl
    rw [hbad, hbad', List.map_filterMap]
    refine (hperm.filterMap _).trans ?_
    rw [List.filterMap_map]
    refine List.Perm.of_eq (List.filterMap_congr fun c _ => ?_)
    exact hmoved c

end

/-! ## Cycles -/

/-- A class names another one as its parent. -/
def Extends {ν : Type} (ds : List (ClassDecl ν)) (name name' : String) : Prop :=
  ∃ d ∈ ds, d.name.name = name ∧ ∃ parent ∈ d.parent, parent.name = name'

/-- No class inherits from itself, be it over others. -/
def Acyclic {ν : Type} (ds : List (ClassDecl ν)) : Prop :=
  ∀ name, ¬ Relation.TransGen (Extends ds) name name

theorem Acyclic.mono {ν : Type} {ds es : List (ClassDecl ν)} (h : Acyclic es) (hsub : ds ⊆ es) :
    Acyclic ds :=
  fun name hcycle => h name <|
    Relation.TransGen.mono (fun _ _ ⟨d, hd, hrest⟩ => ⟨d, hsub hd, hrest⟩) _ _ hcycle

/-- Classes whose parents have lower ranks form no cycle. -/
theorem acyclic_of_rank {ν : Type} {ds : List (ClassDecl ν)} (rank : String → Nat)
    (h : ∀ d ∈ ds, ∀ parent ∈ d.parent, rank parent.name < rank d.name.name) : Acyclic ds := by
  have hlt : ∀ name name', Relation.TransGen (Extends ds) name name' → rank name' < rank name := by
    intro name name' hreach
    induction hreach with
    | single hextends =>
      obtain ⟨d, hd, rfl, parent, hparent, rfl⟩ := hextends
      exact h d hd parent hparent
    | tail _ hextends ih =>
      obtain ⟨d, hd, rfl, parent, hparent, rfl⟩ := hextends
      exact Nat.lt_trans (h d hd parent hparent) ih
  exact fun name hcycle => Nat.lt_irrefl _ (hlt name name hcycle)

/-- Where every chain ends, a climb closes no cycle: the classes behind it are further from the root. -/
theorem climb_rooted {t : ClassTable} (h : t.Rooted) {visited path : List Nat} {bound id : Nat}
    (hid : id < t.size) (hpath : ∀ v ∈ path, (t.ancestors id).length < (t.ancestors v).length) :
    (climb t visited bound path id).2 = none := by
  induction bound generalizing path id with
  | zero => rfl
  | succ bound ih =>
    have hnot : id ∉ path := fun hmem => Nat.lt_irrefl _ (hpath id hmem)
    rw [climb, if_neg hnot]
    split
    · rfl
    · cases hp : t.parent? id with
      | none => rfl
      | some p =>
        have hlt : (t.ancestors p).length < (t.ancestors id).length := by
          rw [ClassTable.ancestors_link h hp]
          exact Nat.lt_succ_self _
        refine ih (h.parent_lt _ _ hp) (List.forall_mem_cons.mpr ⟨hlt, fun v hv => ?_⟩)
        exact Nat.lt_trans hlt (hpath v hv)

theorem cutCycles_rooted {t : ClassTable} (h : t.Rooted) {ids : List Nat}
    (hids : ∀ id ∈ ids, id < t.size) : cutCycles t ids = (t, []) := by
  have hclimbs : ∀ visited, ∃ visited',
      ids.foldl CycleSearch.climbFrom ⟨t, visited, []⟩ = ⟨t, visited', []⟩ := by
    induction ids with
    | nil => exact fun visited => ⟨visited, rfl⟩
    | cons id ids ih =>
      intro visited
      obtain ⟨hid, hids⟩ := List.forall_mem_cons.mp hids
      have hopen : (climb t visited (t.size + 1) [] id).2 = none := climb_rooted h hid (by simp)
      rw [List.foldl_cons, CycleSearch.climbFrom]
      split
      · exact ih hids _
      · next heq =>
        rw [heq] at hopen
        cases hopen
  obtain ⟨visited', hfold⟩ := hclimbs []
  rw [cutCycles, hfold]

/-! ## The linked classes -/

/-- The declared classes with their indices. -/
def declaredClasses (ds : List (ClassDecl Span)) : List (TypeId × ClassDecl Span) :=
  (List.range' TypeId.first ds.length).zip ds

/-- The declared classes, linked to their parents. -/
def linkedTable (ds : List (ClassDecl Span)) : ClassTable :=
  (linkAll (declaredTable ds) (declaredClasses ds)).1

theorem declaredClasses_ids (ds : List (ClassDecl Span)) :
    (declaredClasses ds).map (·.1) = List.range' TypeId.first ds.length :=
  List.map_fst_zip (by simp)

theorem declaredClasses_nodup (ds : List (ClassDecl Span)) : ((declaredClasses ds).map (·.1)).Nodup :=
  declaredClasses_ids ds ▸ List.nodup_range'

theorem mem_declaredClasses {ds : List (ClassDecl Span)} {c : TypeId × ClassDecl Span} :
    c ∈ declaredClasses ds ↔ ∃ i : Nat, c.1 = TypeId.first + i ∧ ds[i]? = some c.2 := by
  rw [declaredClasses, List.mem_iff_getElem?]
  refine exists_congr fun i => ?_
  rw [List.getElem?_zip_eq_some]
  constructor
  · rintro ⟨hid, hd⟩
    obtain ⟨_, hid⟩ := List.getElem?_eq_some_iff.mp hid
    exact ⟨by simpa using hid.symm, hd⟩
  · rintro ⟨hid, hd⟩
    have hi := (List.getElem?_eq_some_iff.mp hd).1
    exact ⟨by simp [hi, hid], hd⟩

/-- What linking makes of the classes. -/
theorem linked_record (ds : List (ClassDecl Span)) : (linkedTable ds).size = TypeId.first + ds.length ∧
    (∀ id : Nat, id < TypeId.first → (linkedTable ds).record? id = ClassTable.standard.record? id) ∧
    ∀ (i : Nat) d, ds[i]? = some d → (linkedTable ds).record? (TypeId.first + i) =
      some { ClassRecord.empty d.name.name d.name.span with
        parent := some (linkOf (declaredTable ds) d) } := by
  obtain ⟨hsize, hstandard, huser⟩ := @record_declared (declaredTable ds) ds rfl
  obtain ⟨hsize', _, hother, heach, _⟩ := @linkAll_each (declaredTable ds) _ (declaredClasses_nodup ds)
  refine ⟨hsize'.trans hsize, fun id hid => ?_, fun i d hd => ?_⟩
  · refine (hother id ?_).trans (hstandard id hid)
    rw [declaredClasses_ids, List.mem_range'_1]
    omega
  · refine (heach (TypeId.first + i, d) (mem_declaredClasses.mpr ⟨i, rfl, hd⟩)).trans ?_
    rw [huser i d hd]
    rfl

/-- A class is linked to a built-in one or to one of the text that it names. -/
theorem linkOf_cases (ds : List (ClassDecl Span)) (d : ClassDecl Span) :
    linkOf (declaredTable ds) d < TypeId.first ∨ ∃ (j : Nat) (e : ClassDecl Span), ds[j]? = some e ∧
      linkOf (declaredTable ds) d = TypeId.first + j ∧ ∃ parent ∈ d.parent, parent.name = e.name.name := by
  obtain ⟨hsize, _, huser⟩ := @record_declared (declaredTable ds) ds rfl
  have hany : TypeId.any < TypeId.first := by decide
  unfold linkOf parentOf
  cases d.parent with
  | none => exact .inl hany
  | some parent =>
    simp only [ClassTable.resolve]
    cases hfind : (declaredTable ds).find? parent.name with
    | none => exact .inl hany
    | some id =>
      simp only [bind, Except.bind]
      split
      · next hok =>
        split at hok <;> cases hok
        by_cases hid : id < TypeId.first
        · exact .inl hid
        · obtain ⟨j, rfl⟩ := Nat.exists_eq_add_of_le (Nat.le_of_not_lt hid)
          obtain ⟨hlt, hname, _⟩ := List.findIdx?_eq_some_iff_getElem.mp hfind
          have hj : j < ds.length := by
            have hlt' : TypeId.first + j < (declaredTable ds).size := hlt
            omega
          have hrecord := huser j ds[j] (List.getElem?_eq_getElem hj)
          rw [ClassTable.record?, List.getElem?_eq_getElem hlt] at hrecord
          refine .inr ⟨j, ds[j], List.getElem?_eq_getElem hj, rfl, parent, rfl, ?_⟩
          rw [Option.some.inj hrecord] at hname
          exact Eq.symm (by simpa [ClassRecord.empty] using hname)
      · exact .inl hany

/-- Without a cycle among the names, every chain of parents ends. -/
theorem linked_rooted {ds : List (ClassDecl Span)} (h : Acyclic ds) : (linkedTable ds).Rooted := by
  obtain ⟨hsize, hstandard, huser⟩ := linked_record ds
  have hpos : TypeId.first ≤ (linkedTable ds).size := hsize ▸ Nat.le_add_right _ _
  have hparent : ∀ (i : Nat) d, ds[i]? = some d →
      (linkedTable ds).parent? (TypeId.first + i) = some (linkOf (declaredTable ds) d) := by
    intro i d hd
    rw [ClassTable.parent?, huser i d hd]
    rfl
  have huserId : ∀ id : Nat, id < (linkedTable ds).size → ¬ id < TypeId.first →
      ∃ (i : Nat) (d : ClassDecl Span), id = TypeId.first + i ∧ ds[i]? = some d := by
    intro id hid hu
    obtain ⟨i, rfl⟩ := Nat.exists_eq_add_of_le (Nat.le_of_not_lt hu)
    have hi : i < ds.length := by omega
    exact ⟨i, ds[i], rfl, List.getElem?_eq_getElem hi⟩
  -- Names cannot lead back to a class, and there are finitely many, so parents come first.
  let above (j i : Fin ds.length) : Prop := Extends ds ds[i].name.name ds[j].name.name
  have hirrefl : Std.Irrefl (Relation.TransGen above) := ⟨fun i hi => h ds[i].name.name
    (Relation.transGen_swap.mp (hi.lift (fun i : Fin ds.length => ds[i].name.name) fun _ _ h => h))⟩
  have hwf : WellFounded (Relation.TransGen above) := Finite.wellFounded_of_trans_of_irrefl _
  have huserChain : ∀ i : Fin ds.length, ∃ l, Chain (linkedTable ds).parent? (TypeId.first + i) l := by
    intro i
    induction i using hwf.induction with
    | _ i ih =>
      have hd : ds[i.1]? = some ds[i] := List.getElem?_eq_getElem i.2
      rcases linkOf_cases ds ds[i] with hlt | ⟨j, e, he, hlink, parent, hnamed, hname⟩
      · obtain ⟨l, hl⟩ := standard_chain hstandard hlt
        exact ⟨_, .link (hparent i _ hd) hl⟩
      · obtain ⟨hj, rfl⟩ := List.getElem?_eq_some_iff.mp he
        obtain ⟨l, hl⟩ := ih ⟨j, hj⟩ (.single ⟨ds[i], List.getElem_mem _, rfl, parent, hnamed, hname⟩)
        exact ⟨_, .link ((hparent i _ hd).trans (congrArg some hlink)) hl⟩
  refine ⟨fun id hid => ?_, fun id p hp => ?_⟩
  · by_cases hu : id < TypeId.first
    · exact standard_chain hstandard hu
    · obtain ⟨i, d, rfl, hd⟩ := huserId id hid hu
      exact huserChain ⟨i, (List.getElem?_eq_some_iff.mp hd).1⟩
  · have hid := ClassTable.lt_of_parent hp
    by_cases hu : id < TypeId.first
    · rw [standard_parent hstandard hu hp]
      exact Nat.lt_of_lt_of_le (by decide) hpos
    · obtain ⟨i, d, rfl, hd⟩ := huserId id hid hu
      rw [hparent i d hd] at hp
      cases hp
      rcases linkOf_cases ds d with hlt | ⟨j, e, he, hlink, _⟩
      · exact Nat.lt_of_lt_of_le hlt hpos
      · rw [hlink, hsize]
        exact Nat.add_lt_add_left (List.getElem?_eq_some_iff.mp he).1 _

/-! ## The whole hierarchy -/

/-- The classes whose names are not those of built-in ones. -/
def fresh (cs : List (ClassDecl Span)) : List (ClassDecl Span) := cs.filter (isFresh .standard)

/-- The classes with bad parents, and their errors. -/
def badLinks (ds : List (ClassDecl Span)) : List (TypeId × SemanticError) :=
  (linkAll (declaredTable ds) (declaredClasses ds)).2

/-- The hierarchy of classes with different names and without a cycle. -/
theorem build_distinct {cs : List (ClassDecl Span)} (hnames : (cs.map (·.name.name)).Nodup)
    (hacyclic : Acyclic cs) :
    build cs = ⟨(declaredClasses (fresh cs)).filter fun c =>
        !isLeftOut (linkedTable (fresh cs)) ((badLinks (fresh cs)).map (·.1)) c.1,
      linkedTable (fresh cs),
      (cs.filter (!isFresh .standard ·)).map (fun d => ⟨.duplicateDeclaration d.name.name, d.name.span⟩) ++
        (badLinks (fresh cs)).map (·.2)⟩ := by
  obtain ⟨hclasses, hrecords, herrors⟩ := @declareAll_distinct .standard cs hnames
  have hdeclared : declareAll .standard cs = ⟨declaredClasses (fresh cs), declaredTable (fresh cs),
      (cs.filter (!isFresh .standard ·)).map fun d => ⟨.duplicateDeclaration d.name.name, d.name.span⟩⟩ := by
    generalize declareAll .standard cs = declared at hclasses hrecords herrors
    obtain ⟨classes, ⟨records⟩, errors⟩ := declared
    simp only [ClassTable.size, standard_length] at hclasses hrecords herrors
    subst hclasses hrecords herrors
    rfl
  have hids : ∀ id ∈ (declaredClasses (fresh cs)).map (·.1), id < (linkedTable (fresh cs)).size := by
    intro id hid
    rw [declaredClasses_ids, List.mem_range'_1] at hid
    rw [(linked_record _).1]
    exact hid.2
  have hrooted : (linkedTable (fresh cs)).Rooted := linked_rooted (hacyclic.mono (List.filter_subset_self _))
  have hcut := cutCycles_rooted hrooted hids
  have hleft : (declaredClasses (fresh cs)).filter (fun c => !(leftOut (linkedTable (fresh cs))
      ((badLinks (fresh cs)).map (·.1)) ((declaredClasses (fresh cs)).map (·.1))).contains c.1) =
      (declaredClasses (fresh cs)).filter fun c =>
        !isLeftOut (linkedTable (fresh cs)) ((badLinks (fresh cs)).map (·.1)) c.1 :=
    List.filter_congr fun c hc => by
      have hid := List.mem_map_of_mem (f := (·.1)) hc
      rw [leftOut_contains hrooted hid (hids _ hid)]
  rw [← hleft]
  simp only [build, hdeclared]
  simp only [linkedTable, badLinks] at hcut ⊢
  rw [hcut, List.append_nil]

theorem isLeftOut_renumber {π : Equiv.Perm Nat} {t t' : ClassTable} (h : t.Renumbers π t')
    {bad bad' : List TypeId} (hbad : ∀ id, π id ∈ bad' ↔ id ∈ bad) (id : TypeId) :
    isLeftOut t' bad' (π id) = isLeftOut t bad id := by
  rw [isLeftOut, isLeftOut, h.ancestors_eq, List.any_map]
  congr 1
  funext a
  rw [Function.comp_apply, Bool.eq_iff_iff, List.contains_iff_mem, List.contains_iff_mem, hbad]

theorem declaredClasses_renumber {ds es : List (ClassDecl Span)} {σ : Equiv.Perm Nat}
    (h : ∀ i, es[σ i]? = ds[i]?) :
    (declaredClasses es).Perm ((declaredClasses ds).map (moved (behind TypeId.first σ))) := by
  have hinjective : Function.Injective (moved (behind TypeId.first σ)) := by
    rintro ⟨id, d⟩ ⟨id', d'⟩ heq
    simp only [moved, Prod.mk.injEq, EmbeddingLike.apply_eq_iff_eq] at heq
    exact Prod.ext heq.1 heq.2
  refine (List.perm_ext_iff_of_nodup (.of_map _ (declaredClasses_nodup es))
    (.map hinjective (.of_map _ (declaredClasses_nodup ds)))).mpr fun c => ?_
  rw [List.mem_map, mem_declaredClasses]
  constructor
  · rintro ⟨i, hid, hd⟩
    refine ⟨(TypeId.first + σ.symm i, c.2), mem_declaredClasses.mpr ⟨_, rfl, ?_⟩, ?_⟩
    · rw [← h, Equiv.apply_symm_apply, hd]
    · rw [moved, behind_add, Equiv.apply_symm_apply, ← hid]
  · rintro ⟨⟨id, d⟩, hc, rfl⟩
    obtain ⟨i, rfl, hd⟩ := mem_declaredClasses.mp hc
    exact ⟨σ i, behind_add, (h i).trans hd⟩

/-- Classes in another order make the same hierarchy, with the classes at other indices. -/
theorem build_renumbers {cs cs' : List (ClassDecl Span)} (hperm : cs.Perm cs')
    (hnames : (cs.map (·.name.name)).Nodup) (hacyclic : Acyclic cs) :
    ∃ σ : Equiv.Perm Nat, (∀ i, (fresh cs')[σ i]? = (fresh cs)[i]?) ∧
      (build cs).table.Renumbers (behind TypeId.first σ) (build cs').table ∧
      (build cs').classes.Perm ((build cs).classes.map (moved (behind TypeId.first σ))) ∧
      (build cs').errors.Perm (build cs).errors := by
  have hfresh : ∀ d ∈ fresh cs, isFresh .standard d = true := fun d hd => (List.mem_filter.mp hd).2
  have hnames' : ((fresh cs).map (·.name.name)).Nodup :=
    hnames.sublist (List.Sublist.map _ List.filter_sublist)
  have hperm' : (fresh cs).Perm (fresh cs') := hperm.filter _
  obtain ⟨σ, hσ, hdeclared⟩ := declared_renumbers hperm' hnames' hfresh
  have hclasses := declaredClasses_renumber hσ
  obtain ⟨hlinked, hbad⟩ := linkAll_renumbers hdeclared (declaredClasses_nodup _) hclasses
  rw [build_distinct hnames hacyclic, build_distinct ((hperm.map _).nodup hnames)
    (hacyclic.mono hperm.symm.subset)]
  refine ⟨σ, hσ, hlinked, ?_, ((hperm.symm.filter _).map _).append ?_⟩
  · have hleft (id : Nat) : isLeftOut (linkedTable (fresh cs')) ((badLinks (fresh cs')).map (·.1))
        (behind TypeId.first σ id) =
          isLeftOut (linkedTable (fresh cs)) ((badLinks (fresh cs)).map (·.1)) id := by
      refine isLeftOut_renumber hlinked (fun id => ?_) id
      have hids := hbad.map (·.1)
      rw [List.map_map] at hids
      refine hids.mem_iff.trans (.trans ?_ (List.mem_map_of_injective (behind TypeId.first σ).injective))
      rw [List.map_map]
      rfl
    refine (hclasses.filter _).trans (.of_eq ?_)
    rw [List.filter_map]
    refine congrArg _ (List.filter_congr fun c _ => ?_)
    exact congrArg (!·) (hleft c.1)
  · have herrors := hbad.map (·.2)
    rwa [List.map_map] at herrors

end Hierarchy

end ClassLang
