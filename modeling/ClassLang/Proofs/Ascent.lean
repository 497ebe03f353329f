import ClassLang.Proofs.Hierarchy
import ClassLang.Proofs.Validation
import Mathlib.Logic.Relation

/-!
# Walks up the parents

Classes and constructs are looked up by walking up their parents, and the walk is broken off after as many
entries as there are. That loses nothing, whether the parents end or close a cycle: a walk to the first
entry that has what is looked for meets no entry twice, so there is room for all of it
(`findSome_of_nearest`). For tables that grow by single steps and for valid images all walks are
therefore exact (`walks_exact`).

A walk that stops at the first hit follows the parents in which every hit has none. Those end, so that
what is known of chains holds of them.
-/

namespace ClassLang

/-! ## Walks -/

/-- Parents lead from one entry to another, by any number of links. -/
def Ascends (parent? : Nat → Option Nat) : Nat → Nat → Prop :=
  Relation.ReflTransGen fun i p => parent? i = some p

/-- An entry that is among its own ancestors. -/
def OnCycle (parent? : Nat → Option Nat) (i : Nat) : Prop :=
  ∃ p, parent? i = some p ∧ Ascends parent? p i

/-- `Nearest parent? P i j`: `j` has the property, and no entry does that is met on the way from `i`. -/
inductive Nearest (parent? : Nat → Option Nat) (P : Nat → Prop) : Nat → Nat → Prop
  | here {i : Nat} : P i → Nearest parent? P i i
  | link {i p j : Nat} : ¬ P i → parent? i = some p → Nearest parent? P p j → Nearest parent? P i j

/-- A search along the parents returns what the nearest entry of the chain has, together with that entry,
and nothing only if no entry of the chain has anything. -/
def FindsNearest {β : Type} (parent? : Nat → Option Nat) (own : Nat → Option β)
    (find : Nat → Option (Nat × β)) : Prop :=
  ∀ i, (∀ j b, find i = some (j, b) ↔ Nearest parent? (fun k => (own k).isSome) i j ∧ own j = some b) ∧
    (find i = none ↔ ∀ j, Ascends parent? i j → own j = none)

namespace Nearest

variable {parent? : Nat → Option Nat} {P : Nat → Prop} {i j k : Nat}

theorem holds (h : Nearest parent? P i j) : P j := by
  induction h with
  | here hi => exact hi
  | link _ _ _ ih => exact ih

theorem unique (h : Nearest parent? P i j) (h' : Nearest parent? P i k) : j = k := by
  induction h with
  | here hi =>
    cases h' with
    | here _ => rfl
    | link hn _ _ => exact absurd hi hn
  | link hn hp _ ih =>
    cases h' with
    | here hi => exact absurd hi hn
    | link _ hp' h' =>
      rw [hp] at hp'
      cases hp'
      exact ih h'

/-- Where any ancestor has the property, there is a nearest one. -/
theorem of_ascends (h : Ascends parent? i j) (hj : P j) : ∃ k, Nearest parent? P i k := by
  induction h using Relation.ReflTransGen.head_induction_on with
  | refl => exact ⟨j, .here hj⟩
  | @head i p hp _ ih =>
    obtain ⟨k, hk⟩ := ih
    by_cases hi : P i
    · exact ⟨i, .here hi⟩
    · exact ⟨k, .link hi hp hk⟩

/-- The entries up to the nearest one are a chain of the parents in which every entry with the property
has none. -/
theorem chain [DecidablePred P] (h : Nearest parent? P i j) :
    ∃ l, Chain (fun k => if P k then none else parent? k) i l := by
  induction h with
  | here hi => exact ⟨_, .root (if_pos hi)⟩
  | link hn hp _ ih =>
    obtain ⟨l, hl⟩ := ih
    exact ⟨_, .link (by rw [if_neg hn, hp]) hl⟩

end Nearest

/-- The parents of `n` entries stay below `n`. -/
def Within (parent? : Nat → Option Nat) (n : Nat) : Prop := ∀ i p, parent? i = some p → i < n ∧ p < n

section

variable {parent? : Nat → Option Nat} {n i j : Nat} {β : Type}

theorem ascends_of_mem_lineage (h : j ∈ lineage parent? n i) : Ascends parent? i j := by
  induction n generalizing i with
  | zero => cases h
  | succ n ih =>
    rw [lineage] at h
    rcases List.mem_cons.mp h with rfl | h
    · exact .refl
    · split at h
      · next p hp => exact .head hp (ih h)
      · cases h

/-- A walk that is long enough for a chain up to the nearest hit finds it. -/
theorem findSome_of_nearest_of_chain {f : Nat → Option β} {l : List Nat}
    (h : Nearest parent? (fun k => (f k).isSome) i j)
    (hl : Chain (fun k => if (f k).isSome then none else parent? k) i l) (hn : l.length ≤ n) :
    (lineage parent? n i).findSome? f = f j := by
  induction h generalizing l n with
  | @here i hi =>
    cases hl with
    | link hp _ => simp [hi] at hp
    | root _ =>
      obtain ⟨m, rfl⟩ := Nat.exists_eq_add_of_le' hn
      obtain ⟨b, hb⟩ := Option.isSome_iff_exists.mp hi
      simp [lineage, hb]
  | @link i p j hi hp _ ih =>
    cases hl with
    | root hnone => simp [hi, hp] at hnone
    | @link _ q l hq hl =>
      rw [if_neg hi, hp] at hq
      cases hq
      obtain ⟨m, rfl⟩ : ∃ m, n = m + 1 := ⟨n - 1, by rw [List.length_cons] at hn; omega⟩
      have hnone : f i = none := Option.not_isSome_iff_eq_none.mp hi
      simp [lineage, hp, hnone, ih hl (Nat.le_of_succ_le_succ hn)]

/-- A walk over as many entries as there are finds the nearest hit, also on a cycle. -/
theorem findSome_of_nearest {f : Nat → Option β} (hin : Within parent? n) (hpos : 0 < n)
    (h : Nearest parent? (fun k => (f k).isSome) i j) : (lineage parent? n i).findSome? f = f j := by
  obtain ⟨l, hl⟩ := h.chain
  refine findSome_of_nearest_of_chain h hl ?_
  have hstays (k p : Nat) (hk : (if (f k).isSome then none else parent? k) = some p) : p < n := by
    split at hk
    · cases hk
    · exact (hin k p hk).2
  by_cases hi : i < n
  · exact hl.length_le (hl.mem_lt hi hstays)
  · -- What is no entry has no parent.
    cases hl with
    | root _ => exact hpos
    | @link _ q _ hq _ =>
      split at hq
      · cases hq
      · exact absurd (hin i q hq).1 hi

theorem findSome_eq_none_iff {f : Nat → Option β} (hin : Within parent? n) (hpos : 0 < n) :
    (lineage parent? n i).findSome? f = none ↔ ∀ j, Ascends parent? i j → f j = none := by
  constructor
  · intro h j hj
    by_contra hsome
    obtain ⟨k, hk⟩ := Nearest.of_ascends (P := fun k => (f k).isSome) hj
      (Option.isSome_iff_ne_none.mpr hsome)
    have hfound := findSome_of_nearest hin hpos hk
    rw [h] at hfound
    simpa [← hfound] using hk.holds
  · exact fun h => List.findSome?_eq_none_iff.mpr fun j hj => h j (ascends_of_mem_lineage hj)

theorem mem_lineage_iff (hin : Within parent? n) (hpos : 0 < n) :
    j ∈ lineage parent? n i ↔ Ascends parent? i j := by
  refine ⟨ascends_of_mem_lineage, fun h => ?_⟩
  by_contra hnot
  -- A search for `j` alone.
  have hnone : (lineage parent? n i).findSome? (fun k => if k = j then some () else none) = none :=
    List.findSome?_eq_none_iff.mpr fun k hk => if_neg fun heq => hnot (by rwa [heq] at hk)
  have hj := (findSome_eq_none_iff hin hpos).mp hnone j h
  rw [if_pos rfl] at hj
  cases hj

/-- A search for what entries have of their own, along as many entries as there are. -/
theorem findsNearest_lineage {own : Nat → Option β} (hin : Within parent? n) (hpos : 0 < n) :
    FindsNearest parent? own fun i =>
      (lineage parent? n i).findSome? fun k => (own k).map (k, ·) := by
  intro i
  refine ⟨fun j b => ⟨fun h => ?_, fun ⟨h, hb⟩ => ?_⟩, ?_⟩
  · have hsome : ¬ ∀ k, Ascends parent? i k → own k = none := by
      intro hall
      have hnone : (lineage parent? n i).findSome? (fun k => (own k).map (k, ·)) = none :=
        (findSome_eq_none_iff hin hpos).mpr fun k hk => by rw [hall k hk]; rfl
      cases hnone.symm.trans h
    push Not at hsome
    obtain ⟨k, hk, hown⟩ := hsome
    obtain ⟨m, hm⟩ := Nearest.of_ascends (P := fun k => (own k).isSome) hk
      (Option.isSome_iff_ne_none.mpr hown)
    have hfound : (own m).map (m, ·) = some (j, b) :=
      (findSome_of_nearest hin hpos (by simpa only [Option.isSome_map] using hm)).symm.trans h
    obtain ⟨c, hc, heq⟩ := Option.map_eq_some_iff.mp hfound
    cases heq
    exact ⟨hm, hc⟩
  · refine (findSome_of_nearest hin hpos (by simpa only [Option.isSome_map] using h)).trans ?_
    rw [hb]
    rfl
  · simp only [findSome_eq_none_iff hin hpos, Option.map_eq_none_iff]

end

/-! ## Class tables -/

/-- A table that is made of the built-in classes in single steps: a class is declared, a parent is set to
some class of the table, or to none, and a field or a method is added. The order is free, so that parents
can close cycles. -/
inductive ClassTable.Grown : ClassTable → Prop
  | standard : Grown .standard
  | declare {t t' : ClassTable} {name : Ident} {id : TypeId} :
      Grown t → t.declare name = .ok (id, t') → Grown t'
  | setParent {t : ClassTable} {id : TypeId} {parent : Option TypeId} :
      Grown t → (∀ p ∈ parent, p < t.size) → Grown (t.setParent id parent)
  | addField {t t' : ClassTable} {id : TypeId} {name : Ident} {access : Access} {type : Ty} :
      Grown t → t.addField id name access type = .ok t' → Grown t'
  | addMethod {t t' : ClassTable} {id : TypeId} {m : Method} :
      Grown t → t.addMethod id m = .ok t' → Grown t'

namespace AscentLemmas

open Hierarchy HierarchyLemmas

variable {t t' : ClassTable} {id : TypeId}

theorem parent_modify (f : ClassRecord → ClassRecord) (j : TypeId) : (t.modify id f).parent? j =
    if id = j then (t.record? j).bind fun r => (f r).parent else t.parent? j := by
  rw [ClassTable.parent?, record_modify]
  split
  · rw [Option.bind_map]
    rfl
  · rfl

/-- Changes that leave the parent of a class alone leave all parents alone. -/
theorem within_modify {f : ClassRecord → ClassRecord} (hf : ∀ r, (f r).parent = r.parent)
    (h : Within t.parent? t.size) : Within (t.modify id f).parent? (t.modify id f).size := by
  intro i p hp
  rw [size_modify]
  refine h i p ?_
  rw [parent_modify] at hp
  split at hp
  · simpa [ClassTable.parent?, hf] using hp
  · exact hp

theorem within_declare {name : Ident} (h : Within t.parent? t.size)
    (hd : t.declare name = .ok (id, t')) : Within t'.parent? t'.size ∧ t'.size = t.size + 1 := by
  obtain ⟨_, rfl, rfl⟩ := ClassTable.declare_ok hd
  have hsize : ClassTable.size ⟨t.records ++ [ClassRecord.empty name.name name.span]⟩ = t.size + 1 := by
    simp [ClassTable.size]
  refine ⟨fun i p hp => ?_, hsize⟩
  obtain ⟨r, hr, hrp⟩ := Option.bind_eq_some_iff.mp hp
  rw [ClassTable.record?, List.getElem?_append] at hr
  split at hr
  · have hold := h i p (by rw [ClassTable.parent_of_record hr, hrp])
    rw [hsize]
    exact ⟨Nat.lt_succ_of_lt hold.1, Nat.lt_succ_of_lt hold.2⟩
  · -- The new class has no parent yet.
    rw [List.getElem?_singleton] at hr
    split at hr
    · cases hr
      cases hrp
    · cases hr

theorem within_setParent {parent : Option TypeId} (h : Within t.parent? t.size)
    (hparent : ∀ p ∈ parent, p < t.size) :
    Within (t.setParent id parent).parent? (t.setParent id parent).size := by
  intro i p hp
  rw [ClassTable.setParent, size_modify]
  rw [ClassTable.setParent, parent_modify] at hp
  split at hp
  · obtain ⟨r, hr, hrp⟩ := Option.bind_eq_some_iff.mp hp
    exact ⟨ClassTable.lt_of_record hr, hparent p hrp⟩
  · exact h i p hp

theorem within_standard : Within ClassTable.standard.parent? ClassTable.standard.size := by
  have hsize : ClassTable.standard.size = TypeId.first := by decide +kernel
  intro i p hp
  have hi : i < ClassTable.standard.size := ClassTable.lt_of_parent hp
  obtain rfl := standard_parent (fun _ _ => rfl) (hsize ▸ hi) hp
  exact ⟨hi, hsize ▸ by decide⟩

/-- No step takes a class away or lets a parent point outside the table. -/
theorem grown_within (h : t.Grown) : Within t.parent? t.size ∧ 0 < t.size := by
  induction h with
  | standard => exact ⟨within_standard, by decide +kernel⟩
  | declare _ hd ih =>
    obtain ⟨hin, hsize⟩ := within_declare ih.1 hd
    exact ⟨hin, hsize ▸ Nat.succ_pos _⟩
  | setParent _ hparent ih =>
    exact ⟨within_setParent ih.1 hparent, (size_modify _ _ _).symm ▸ ih.2⟩
  | addField _ ha ih =>
    unfold ClassTable.addField at ha
    split at ha
    · cases ha
    · cases ha
      exact ⟨within_modify (fun _ => rfl) ih.1, (size_modify _ _ _).symm ▸ ih.2⟩
  | addMethod _ ha ih =>
    unfold ClassTable.addMethod at ha
    split at ha
    · cases ha
    · cases ha
      exact ⟨within_modify (fun _ => rfl) ih.1, (size_modify _ _ _).symm ▸ ih.2⟩

/-- Without cycles no two entries are ancestors of each other. -/
theorem ascends_antisymm {parent? : Nat → Option Nat} {i j : Nat} (hno : ∀ k, ¬ OnCycle parent? k)
    (h : Ascends parent? i j) (h' : Ascends parent? j i) : i = j := by
  rcases h.cases_head with heq | ⟨p, hp, hpj⟩
  · exact heq
  · exact absurd ⟨p, hp, hpj.trans h'⟩ (hno i)

/-! ## Valid images -/

theorem parentDefect_none {image : Image} {cs : List Construct} {i : Nat}
    (h : image.constructsDefect? i cs = none) :
    ∀ k c, cs[k]? = some c → image.parentDefect? (i + k) c = none := by
  induction cs generalizing i with
  | nil => simp
  | cons c cs ih =>
    obtain ⟨hc, hcs⟩ := ValidationLemmas.none_of_or h
    intro k d hd
    cases k with
    | zero =>
      cases hd
      exact (ValidationLemmas.none_of_or hc).1
    | succ k =>
      rw [Nat.add_succ, ← Nat.succ_add]
      exact ih hcs k d hd

theorem within_of_validate {image : Image} (h : image.validate = .ok ()) :
    Within image.parent? image.constructs.size ∧ 0 < image.constructs.size := by
  obtain ⟨hmain, hconstructs, _⟩ := Image.sound_of_validate h
  have hlt {i : Nat} {c : Construct} (hc : image.construct? i = some c) : i < image.constructs.size :=
    (Array.getElem?_eq_some_iff.mp hc).1
  refine ⟨fun i p hp => ?_, ?_⟩
  · obtain ⟨c, hc, hcp⟩ := Option.bind_eq_some_iff.mp hp
    have hdefect : image.parentDefect? (0 + i) c = none :=
      parentDefect_none hconstructs i c (Array.getElem?_toList.trans hc)
    have hthere := ValidationLemmas.not_of_filter hdefect p hcp
    simp only [Bool.or_eq_true, not_or, Option.isNone_iff_eq_none] at hthere
    obtain ⟨d, hd⟩ := Option.ne_none_iff_exists'.mp hthere.2
    exact ⟨hlt hc, hlt hd⟩
  · obtain ⟨c, hc⟩ := Option.isSome_iff_exists.mp hmain
    exact Nat.zero_lt_of_lt (hlt hc)

end AscentLemmas

open AscentLemmas

/-! ## Exactness -/

/-- The walks of a table see all of its hierarchy: inheritance is the closure of the parent links, members
are found on the nearest class that declares them, and types may stand for each other in a preorder, which
is an order unless parents close a cycle. -/
structure ClassTable.WalksExact (t : ClassTable) : Prop where
  isSubclass : ∀ s u, t.isSubclass s u = true ↔ Ascends t.parent? s u
  lookupField : ∀ name, FindsNearest t.parent? (fun id => (t.record? id).bind (·.field? name))
    (t.lookupField? · name)
  lookupMethod : ∀ key, FindsNearest t.parent? (fun id => (t.record? id).bind (·.method? key))
    (t.lookupMethod? · key)
  isAssignable_refl : ∀ τ, t.isAssignable τ τ = true
  isAssignable_trans : ∀ σ τ υ, t.isAssignable σ τ = true → t.isAssignable τ υ = true →
    t.isAssignable σ υ = true
  isAssignable_antisymm : (∀ id, ¬ OnCycle t.parent? id) → ∀ σ τ, t.isAssignable σ τ = true →
    t.isAssignable τ σ = true → σ = τ

/-- The walks of an image see all of the parents of its constructs. -/
structure Image.WalksExact (image : Image) : Prop where
  isInstance : ∀ i j, image.isInstance i j = true ↔ Ascends image.parent? i j
  resolve : ∀ member, FindsNearest image.parent?
    (fun i => (image.construct? i).bind (·.bodies.find? member)) (image.resolve? · member)

theorem ClassTable.walksExact {t : ClassTable} (hin : Within t.parent? t.size) (hpos : 0 < t.size) :
    t.WalksExact := by
  have hsub (s u : TypeId) : t.isSubclass s u = true ↔ Ascends t.parent? s u := by
    rw [ClassTable.isSubclass_iff]
    exact mem_lineage_iff hin hpos
  refine ⟨hsub, fun _ => findsNearest_lineage hin hpos, fun _ => findsNearest_lineage hin hpos,
    fun τ => ?_, fun σ τ υ hστ hτυ => ?_, fun hno σ τ hστ hτσ => ?_⟩
  · cases τ with
    | null => rfl
    | plain c | option c => exact (hsub c c).mpr .refl
  · cases σ <;> cases τ <;> simp only [isAssignable, Bool.false_eq_true] at hστ <;>
      cases υ <;> simp only [isAssignable, Bool.false_eq_true] at hτυ ⊢ <;>
      exact (hsub _ _).mpr (((hsub _ _).mp hστ).trans ((hsub _ _).mp hτυ))
  · cases σ <;> cases τ <;> simp only [isAssignable, Bool.false_eq_true] at hστ hτσ ⊢ <;>
      rw [ascends_antisymm hno ((hsub _ _).mp hστ) ((hsub _ _).mp hτσ)]

theorem Image.walksExact {image : Image} (hin : Within image.parent? image.constructs.size)
    (hpos : 0 < image.constructs.size) : image.WalksExact := by
  refine ⟨fun i j => ?_, fun _ => findsNearest_lineage hin hpos⟩
  rw [isInstance, List.contains_iff_mem]
  exact mem_lineage_iff hin hpos

/-- Breaking walks off loses nothing: neither in a table that is made of the built-in classes step by step,
in whatever order, nor in a valid image, and even where parents close a cycle. -/
theorem walks_exact : (∀ t : ClassTable, t.Grown → t.WalksExact) ∧
    ∀ image : Image, image.validate = .ok () → image.WalksExact := by
  refine ⟨fun t h => ?_, fun image h => ?_⟩
  · obtain ⟨hin, hpos⟩ := grown_within h
    exact ClassTable.walksExact hin hpos
  · obtain ⟨hin, hpos⟩ := within_of_validate h
    exact Image.walksExact hin hpos

/-- Two declared classes, neither with a parent yet. -/
def twins : ClassTable :=
  ⟨(ClassTable.standard.records ++ [.empty "Left" .none]) ++ [.empty "Right" .none]⟩

/-- The two classes as each other's parents. -/
def tiedTwins : ClassTable := (twins.setParent 6 (some 7)).setParent 7 (some 6)

/-- The two classes, one of them with a field. -/
def knottedTwins : ClassTable := tiedTwins.modify 7 fun r =>
  { r with fields := r.fields ++ [⟨"size", .everyone, .number, 0, .none⟩] }

/-- Two constructs that are each other's parents. -/
def twinConstructs : Image where
  magic := Image.formatMagic
  version := Image.formatVersion
  constructs := #[⟨"Left", some 1, 0, .empty⟩, ⟨"Right", some 0, 0, .empty⟩]
  main := 0
  constants := .empty
  members := #[]
  entry := ⟨#[], 0, 0⟩

theorem knottedTwins_grown : knottedTwins.Grown := by
  have hleft : ClassTable.standard.declare ⟨"Left", .none⟩ =
      .ok (6, ⟨ClassTable.standard.records ++ [.empty "Left" .none]⟩) := by decide +kernel
  have hright : ClassTable.declare ⟨ClassTable.standard.records ++ [.empty "Left" .none]⟩ ⟨"Right", .none⟩ =
      .ok (7, twins) := by decide +kernel
  have htwins : twins.Grown := .declare (.declare .standard hleft) hright
  have htied : tiedTwins.Grown := .setParent (.setParent htwins (by decide +kernel)) (by decide +kernel)
  have hfield : tiedTwins.addField 7 ⟨"size", .none⟩ .everyone .number = .ok knottedTwins := by decide +kernel
  exact .addField htied hfield

theorem walks_exact_cyclic :
    Ascends knottedTwins.parent? 6 6 ∧ ¬ Ascends knottedTwins.parent? 6 TypeId.any ∧
    Nearest knottedTwins.parent? (fun id => ((knottedTwins.record? id).bind (·.field? "size")).isSome) 6 7 ∧
    twinConstructs.validate = .ok () ∧
    Ascends twinConstructs.parent? 0 1 ∧ ¬ Ascends twinConstructs.parent? 0 2 := by
  have ht := walks_exact.1 knottedTwins knottedTwins_grown
  have hvalid : twinConstructs.validate = .ok () := by decide +kernel
  have hi := walks_exact.2 twinConstructs hvalid
  refine ⟨(ht.isSubclass 6 6).mp (by decide +kernel), fun h => ?_, ?_, hvalid,
    (hi.isInstance 0 1).mp (by decide +kernel), fun h => ?_⟩
  · exact absurd ((ht.isSubclass 6 TypeId.any).mpr h) (by decide +kernel)
  · exact (((ht.lookupField "size" 6).1 7 ⟨"size", .everyone, .number, 0, .none⟩).mp (by decide +kernel)).1
  · exact absurd ((hi.isInstance 0 2).mpr h) (by decide +kernel)

end ClassLang
