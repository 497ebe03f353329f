import ClassLang.Classes.Table
import Mathlib.Data.List.Perm.Subperm

/-!
# Whole parent chains

`lineage` cuts a parent chain after as many links as there are entries. This file shows that the cut
never bites where every chain ends: the ancestors of a class are then the class itself followed by the
ancestors of its parent (`ancestors_link`), or the class alone (`ancestors_root`). All lookups that climb
the chain are opened by these two equations, and `Rooted.induct` is the induction along the chain.
-/

namespace ClassLang

/-- Below a bound there is no room for a longer list without repetition. -/
theorem length_le_of_nodup {n : Nat} {l : List Nat} (h : l.Nodup) (hlt : ∀ j ∈ l, j < n) : l.length ≤ n := by
  have hsub : l ⊆ List.range n := fun j hj => List.mem_range.mpr (hlt j hj)
  simpa using (List.subperm_of_subset h hsub).length_le

/-- `Chain parent? i l`: the parents of `i` end, and `l` lists `i` and all of them, nearest first. -/
inductive Chain (parent? : Nat → Option Nat) : Nat → List Nat → Prop
  | root {i : Nat} : parent? i = none → Chain parent? i [i]
  | link {i p : Nat} {l : List Nat} :
      parent? i = some p → Chain parent? p l → Chain parent? i (i :: l)

namespace Chain

variable {parent? : Nat → Option Nat}

theorem unique {i : Nat} {l l' : List Nat} (h : Chain parent? i l) (h' : Chain parent? i l') :
    l = l' := by
  induction h generalizing l' with
  | root hn =>
    cases h' with
    | root _ => rfl
    | link hp _ => rw [hn] at hp; cases hp
  | link hp _ ih =>
    cases h' with
    | root hn => rw [hn] at hp; cases hp
    | link hp' hc' =>
      rw [hp] at hp'
      cases hp'
      rw [ih hc']

/-- Every entry of a chain has a chain that is no longer. -/
theorem suffix {i j : Nat} {l : List Nat} (h : Chain parent? i l) (hj : j ∈ l) :
    ∃ l', Chain parent? j l' ∧ l'.length ≤ l.length := by
  induction h with
  | root hn =>
    rw [List.mem_singleton] at hj
    subst hj
    exact ⟨_, .root hn, Nat.le_refl _⟩
  | link hp hc ih =>
    rcases List.mem_cons.mp hj with rfl | hj
    · exact ⟨_, .link hp hc, Nat.le_refl _⟩
    · obtain ⟨l', hl', hle⟩ := ih hj
      exact ⟨l', hl', Nat.le_succ_of_le hle⟩

theorem nodup {i : Nat} {l : List Nat} (h : Chain parent? i l) : l.Nodup := by
  induction h with
  | root _ => simp
  | @link i p l hp hc ih =>
    refine List.nodup_cons.mpr ⟨fun hi => ?_, ih⟩
    -- A second occurrence would start a shorter chain of the same entry.
    obtain ⟨l', hl', hle⟩ := hc.suffix hi
    rw [hl'.unique (.link hp hc), List.length_cons] at hle
    omega

theorem mem_lt {n i : Nat} {l : List Nat} (h : Chain parent? i l) (hi : i < n)
    (hlt : ∀ j p, parent? j = some p → p < n) : ∀ j ∈ l, j < n := by
  induction h with
  | root _ => simpa using hi
  | link hp _ ih => exact List.forall_mem_cons.mpr ⟨hi, ih (hlt _ _ hp)⟩

theorem length_le {n i : Nat} {l : List Nat} (h : Chain parent? i l) (hlt : ∀ j ∈ l, j < n) :
    l.length ≤ n := length_le_of_nodup h.nodup hlt

theorem lineage_eq {i bound : Nat} {l : List Nat} (h : Chain parent? i l)
    (hb : l.length ≤ bound) : lineage parent? bound i = l := by
  induction h generalizing bound with
  | root hn =>
    obtain ⟨b, rfl⟩ := Nat.exists_eq_add_of_le' hb
    simp [lineage, hn]
  | link hp _ ih =>
    obtain ⟨b, rfl⟩ : ∃ b, bound = b + 1 := ⟨bound - 1, by simp at hb; omega⟩
    simp only [List.length_cons, Nat.add_le_add_iff_right] at hb
    simp [lineage, hp, ih hb]

/-- Renumbering the entries of a chain. -/
theorem map {parent' : Nat → Option Nat} {i : Nat} {l : List Nat} (f : Nat → Nat)
    (h : Chain parent? i l) (hf : ∀ j ∈ l, parent' (f j) = (parent? j).map f) :
    Chain parent' (f i) (l.map f) := by
  induction h with
  | root hn => exact .root (by simpa [hn] using hf _ (List.mem_singleton_self _))
  | link hp _ ih =>
    refine .link ?_ (ih fun j hj => hf j (List.mem_cons_of_mem _ hj))
    simpa [hp] using hf _ List.mem_cons_self

end Chain

/-- Every class has a chain, and no parent is missing. -/
structure ClassTable.Rooted (t : ClassTable) : Prop where
  chain : ∀ id, id < t.size → ∃ l, Chain t.parent? id l
  parent_lt : ∀ id p, t.parent? id = some p → p < t.size

namespace ClassTable

variable {t : ClassTable} {id p s u w : Nat}

theorem lt_of_record {r : ClassRecord} (h : t.record? id = some r) : id < t.size :=
  (List.getElem?_eq_some_iff.mp h).1

theorem size_succ (h : id < t.size) : ∃ n, t.size = n + 1 := ⟨t.size - 1, by omega⟩

theorem exists_record (h : id < t.size) : ∃ r, t.record? id = some r :=
  ⟨_, List.getElem?_eq_getElem h⟩

theorem lt_of_parent (h : t.parent? id = some p) : id < t.size := by
  unfold parent? at h
  cases hr : t.record? id with
  | none => simp [hr] at h
  | some r => exact lt_of_record hr

theorem parent_of_record {r : ClassRecord} (h : t.record? id = some r) :
    t.parent? id = r.parent := by
  simp [parent?, h]

namespace Rooted

/-- Induction along the parent chain. -/
@[elab_as_elim]
theorem induct {motive : (id : Nat) → id < t.size → Prop} (h : t.Rooted)
    (root : ∀ id (hid : id < t.size), t.parent? id = none → motive id hid)
    (link : ∀ id p (hid : id < t.size) (hp : p < t.size), t.parent? id = some p →
      motive p hp → motive id hid) (id : Nat) (hid : id < t.size) : motive id hid := by
  obtain ⟨l, hl⟩ := h.chain id hid
  induction hl with
  | root hn => exact root _ hid hn
  | link hp _ ih => exact link _ _ hid (h.parent_lt _ _ hp) hp (ih (h.parent_lt _ _ hp))

theorem ancestors_chain (h : t.Rooted) (hid : id < t.size) :
    Chain t.parent? id (t.ancestors id) := by
  obtain ⟨l, hl⟩ := h.chain id hid
  have hlen : l.length ≤ t.size := hl.length_le (hl.mem_lt hid h.parent_lt)
  rw [ancestors, hl.lineage_eq hlen]
  exact hl

end Rooted

theorem ancestors_root (hid : id < t.size) (hn : t.parent? id = none) : t.ancestors id = [id] :=
  (Chain.root hn).lineage_eq (by simp; omega)

theorem ancestors_link (h : t.Rooted) (hp : t.parent? id = some p) :
    t.ancestors id = id :: t.ancestors p :=
  (h.ancestors_chain (lt_of_parent hp)).unique
    (.link hp (h.ancestors_chain (h.parent_lt _ _ hp)))

theorem ancestors_lt (h : t.Rooted) (hid : id < t.size) : ∀ a ∈ t.ancestors id, a < t.size :=
  (h.ancestors_chain hid).mem_lt hid h.parent_lt

/-! ## Inheritance -/

theorem isSubclass_iff : t.isSubclass s u = true ↔ u ∈ t.ancestors s := by
  simp [isSubclass]

theorem isSubclass_refl (hs : s < t.size) : t.isSubclass s s = true := by
  obtain ⟨n, hn⟩ := size_succ hs
  simp [isSubclass, ancestors, hn, lineage]

theorem isSubclass_link (h : t.Rooted) (hp : t.parent? s = some p) :
    t.isSubclass s u = true ↔ u = s ∨ t.isSubclass p u = true := by
  simp only [isSubclass_iff, ancestors_link h hp, List.mem_cons]

theorem isSubclass_parent (h : t.Rooted) (hp : t.parent? s = some p) : t.isSubclass s p = true :=
  (isSubclass_link h hp).mpr (.inr (isSubclass_refl (h.parent_lt _ _ hp)))

theorem isSubclass_root (hs : s < t.size) (hn : t.parent? s = none) :
    t.isSubclass s u = true ↔ u = s := by
  simp [isSubclass_iff, ancestors_root hs hn]

/-- What is no class has no ancestor but itself. -/
theorem eq_of_isSubclass_of_le (hs : t.size ≤ s) (hsu : t.isSubclass s u = true) : u = s := by
  have hn : t.parent? s = none := by
    rw [parent?, record?, List.getElem?_eq_none hs]
    rfl
  rw [isSubclass_iff, ancestors] at hsu
  cases hsize : t.size <;> simp [hsize, lineage, hn] at hsu
  exact hsu

theorem isSubclass_trans (h : t.Rooted) (hsu : t.isSubclass s u = true)
    (huw : t.isSubclass u w = true) : t.isSubclass s w = true := by
  by_cases hs : s < t.size
  · induction s, hs using h.induct with
    | root s hs hn =>
      rw [isSubclass_root hs hn] at hsu
      exact hsu ▸ huw
    | link s p _ _ hp ih =>
      rcases (isSubclass_link h hp).mp hsu with rfl | hsu
      · exact huw
      · exact (isSubclass_link h hp).mpr (.inr (ih hsu))
  · exact eq_of_isSubclass_of_le (Nat.le_of_not_lt hs) hsu ▸ huw

theorem isAssignable_refl {τ : Ty} (hτ : ∀ c, τ.class? = some c → c < t.size) :
    t.isAssignable τ τ = true := by
  cases τ with
  | null => rfl
  | plain c | option c => exact isSubclass_refl (hτ c rfl)

theorem isAssignable_trans (h : t.Rooted) {σ τ υ : Ty} (hστ : t.isAssignable σ τ = true)
    (hτυ : t.isAssignable τ υ = true) : t.isAssignable σ υ = true := by
  cases σ <;> cases τ <;> simp only [isAssignable, Bool.false_eq_true] at hστ <;>
    cases υ <;> simp only [isAssignable, Bool.false_eq_true] at hτυ ⊢ <;>
    exact isSubclass_trans h hστ hτυ

/-! ## Lookups along the chain -/

theorem lookupMethod_own {r : ClassRecord} {key : MemberKey} {m : Method}
    (hr : t.record? id = some r) (hm : r.method? key = some m) :
    t.lookupMethod? id key = some (id, m) := by
  obtain ⟨n, hn⟩ := size_succ (lt_of_record hr)
  simp [lookupMethod?, ancestors, hn, lineage, hr, hm]

theorem lookupMethod_link (h : t.Rooted) {r : ClassRecord} {key : MemberKey}
    (hr : t.record? id = some r) (hm : r.method? key = none) (hp : r.parent = some p) :
    t.lookupMethod? id key = t.lookupMethod? p key := by
  have hp' : t.parent? id = some p := (parent_of_record hr).trans hp
  simp [lookupMethod?, ancestors_link h hp', hr, hm]

theorem lookupMethod_root {r : ClassRecord} {key : MemberKey} (hr : t.record? id = some r)
    (hm : r.method? key = none) (hp : r.parent = none) : t.lookupMethod? id key = none := by
  have hn : t.parent? id = none := (parent_of_record hr).trans hp
  simp [lookupMethod?, ancestors_root (lt_of_record hr) hn, hr, hm]

theorem lookupMethod_some {key : MemberKey} {owner : TypeId} {m : Method}
    (h : t.lookupMethod? id key = some (owner, m)) :
    owner ∈ t.ancestors id ∧ ∃ r, t.record? owner = some r ∧ r.method? key = some m := by
  obtain ⟨a, ha, hfound⟩ := List.exists_of_findSome?_eq_some h
  cases hr : t.record? a with
  | none => simp [hr] at hfound
  | some r =>
    cases hm : r.method? key with
    | none => simp [hr, hm] at hfound
    | some m' =>
      simp only [hr, Option.bind_some, hm, Option.map_some, Option.some.injEq, Prod.mk.injEq]
        at hfound
      obtain ⟨rfl, rfl⟩ := hfound
      exact ⟨ha, r, hr, hm⟩

/-- Only classes of the table have methods. -/
theorem lookupMethod_lt {key : MemberKey} {owner : TypeId} {m : Method}
    (h : t.lookupMethod? id key = some (owner, m)) : id < t.size := by
  obtain ⟨hanc, r, hr, _⟩ := lookupMethod_some h
  by_contra hid
  have heq := eq_of_isSubclass_of_le (Nat.le_of_not_lt hid) (isSubclass_iff.mpr hanc)
  exact hid (heq ▸ lt_of_record hr)

theorem lookupField_own {r : ClassRecord} {name : String} {f : Field}
    (hr : t.record? id = some r) (hf : r.field? name = some f) :
    t.lookupField? id name = some (id, f) := by
  obtain ⟨n, hn⟩ := size_succ (lt_of_record hr)
  simp [lookupField?, ancestors, hn, lineage, hr, hf]

theorem lookupField_some {name : String} {owner : TypeId} {f : Field}
    (h : t.lookupField? id name = some (owner, f)) :
    owner ∈ t.ancestors id ∧ ∃ r, t.record? owner = some r ∧ r.field? name = some f := by
  obtain ⟨a, ha, hfound⟩ := List.exists_of_findSome?_eq_some h
  cases hr : t.record? a with
  | none => simp [hr] at hfound
  | some r =>
    cases hf : r.field? name with
    | none => simp [hr, hf] at hfound
    | some f' =>
      simp only [hr, Option.bind_some, hf, Option.map_some, Option.some.injEq, Prod.mk.injEq]
        at hfound
      obtain ⟨rfl, rfl⟩ := hfound
      exact ⟨ha, r, hr, hf⟩

end ClassTable

end ClassLang
