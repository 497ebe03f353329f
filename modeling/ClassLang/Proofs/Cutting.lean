import ClassLang.Proofs.Hierarchy
import Mathlib.Data.List.Chain

/-!
# Hierarchies with cycles cut

Whatever classes a program declares, the hierarchy that is built of them has no cycle left
(`Hierarchy.build_rooted`): every class of the program has a parent, and its chain of parents ends.

A climb that closes a cycle has met the last class of its path, and no other class on a cycle. That class
has no chain that ends, so no chain that ended before the cut goes through it, and all of them end behind
the cut as before. The other classes of the path reach the last one, which now is a child of the root.
-/

namespace ClassLang

/-- The parents of a class come to an end. -/
def ClassTable.Grounded (t : ClassTable) (id : Nat) : Prop := ∃ l, Chain t.parent? id l

namespace Chain

variable {parent? : Nat → Option Nat} {i j p : Nat} {l : List Nat}

theorem head_mem (h : Chain parent? i l) : i ∈ l := by
  cases h <;> exact List.mem_cons_self

/-- A chain holds the parents of its entries. -/
theorem parent_mem (h : Chain parent? i l) (hj : j ∈ l) (hp : parent? j = some p) : p ∈ l := by
  induction h with
  | root hn =>
    rw [List.mem_singleton.mp hj, hn] at hp
    cases hp
  | link hp' hc ih =>
    rcases List.mem_cons.mp hj with rfl | hj
    · rw [hp'] at hp
      cases hp
      exact List.mem_cons_of_mem _ hc.head_mem
    · exact List.mem_cons_of_mem _ (ih hj)

end Chain

namespace Hierarchy

open HierarchyLemmas

/-! ## Paths -/

/-- The classes of a climb, the last one first: each is the parent of the one behind it. -/
def Climbed (t : ClassTable) (path : List Nat) : Prop :=
  path.IsChain fun a b => t.parent? b = some a

namespace CuttingLemmas

variable {t : ClassTable} {last c v : Nat} {path rest : List Nat}

theorem climbed_cons {a b : Nat} :
    Climbed t (a :: b :: path) ↔ t.parent? b = some a ∧ Climbed t (b :: path) :=
  List.isChain_cons_cons

/-- A climb that closes a cycle leads to a class of its own path. -/
theorem climb_closes {visited path' : List Nat} {bound id : Nat} (hnodup : path.Nodup)
    (hpath : Climbed t (id :: path)) (h : climb t visited bound path id = (path', some c)) :
    path'.Nodup ∧ Climbed t (c :: path') ∧ c ∈ path' ∧ ∀ v ∈ id :: path, v ∈ path' := by
  induction bound generalizing path id with
  | zero => cases h
  | succ bound ih =>
    rw [climb] at h
    split at h
    · next hmem =>
      cases h
      exact ⟨hnodup, hpath, hmem, List.forall_mem_cons.mpr ⟨hmem, fun _ hv => hv⟩⟩
    · next hnot =>
      split at h
      · cases h
      · split at h
        · next p hp =>
          obtain ⟨hnodup', hpath', hc, hsub⟩ :=
            ih (List.nodup_cons.mpr ⟨hnot, hnodup⟩) (climbed_cons.mpr ⟨hp, hpath⟩) h
          exact ⟨hnodup', hpath', hc, fun v hv => hsub v (List.mem_cons_of_mem _ hv)⟩
        · cases h

/-- From every class of a path the parents lead to the last one. -/
theorem last_mem_chain {l : List Nat} (hpath : Climbed t (last :: rest)) (hv : v ∈ last :: rest)
    (hl : Chain t.parent? v l) : last ∈ l := by
  induction rest generalizing last with
  | nil =>
    rw [List.mem_singleton] at hv
    exact hv ▸ hl.head_mem
  | cons b rest ih =>
    rcases List.mem_cons.mp hv with rfl | hv
    · exact hl.head_mem
    · obtain ⟨hparent, hrest⟩ := climbed_cons.mp hpath
      exact hl.parent_mem (ih hrest hv) hparent

/-- The last class of a path that closes a cycle has no chain that ends. -/
theorem last_not_grounded (hpath : Climbed t (c :: last :: rest)) (hc : c ∈ last :: rest) :
    ¬ t.Grounded last := by
  rintro ⟨l, hl⟩
  obtain ⟨hparent, hrest⟩ := climbed_cons.mp hpath
  have hnodup := hl.nodup
  cases hl with
  | root hn =>
    rw [hn] at hparent
    cases hparent
  | link hp hl =>
    rw [hp] at hparent
    cases hparent
    exact (List.nodup_cons.mp hnodup).1 (last_mem_chain hrest hc hl)

end CuttingLemmas

open CuttingLemmas

/-! ## The cut -/

/-- `Relinks t t'`: `t'` is `t` with some parents of classes of the program changed for the root. -/
structure Relinks (t t' : ClassTable) : Prop where
  size : t'.size = t.size
  builtin : ∀ id : Nat, id < TypeId.first → t'.record? id = t.record? id
  each : ∀ (id : Nat) r, t.record? id = some r → ∃ parent,
    t'.record? id = some { r with parent := parent } ∧ (parent = r.parent ∨ parent = some TypeId.any)

namespace Relinks

variable {t t' t'' : ClassTable}

theorem refl : Relinks t t := ⟨rfl, fun _ _ => rfl, fun _ r hr => ⟨r.parent, hr, .inl rfl⟩⟩

theorem trans (h : Relinks t t') (h' : Relinks t' t'') : Relinks t t'' where
  size := h'.size.trans h.size
  builtin id hid := (h'.builtin id hid).trans (h.builtin id hid)
  each id r hr := by
    obtain ⟨p, hr', hp⟩ := h.each id r hr
    obtain ⟨p', hr'', hp'⟩ := h'.each id _ hr'
    refine ⟨p', hr'', ?_⟩
    rcases hp' with rfl | hp'
    · exact hp
    · exact .inr hp'

end Relinks

/-- A table in the midst of the search: the built-in classes are as they were, and the classes met so far
have chains that end. -/
structure Searched (s : CycleSearch) : Prop where
  builtin : ∀ id : Nat, id < TypeId.first → s.table.record? id = ClassTable.standard.record? id
  large : TypeId.first ≤ s.table.size
  parent_lt : ∀ j p, s.table.parent? j = some p → p < s.table.size
  visited : ∀ v ∈ s.visited, s.table.Grounded v

namespace CuttingLemmas

variable {t : ClassTable} {last c v : Nat} {path rest : List Nat} {s : CycleSearch}

/-- The table with the link of a class cut: its parent is the root. -/
abbrev cut (t : ClassTable) (last : Nat) : ClassTable := t.setParent last (some TypeId.any)

theorem cut_record (t : ClassTable) (last j : Nat) : (cut t last).record? j =
    if last = j then (t.record? j).map ({ · with parent := some TypeId.any }) else t.record? j :=
  record_modify t last j _

theorem cut_size (t : ClassTable) (last : Nat) : (cut t last).size = t.size := size_modify _ _ _

theorem cut_parent {j : Nat} (hlast : last < t.size) :
    (cut t last).parent? j = if last = j then some TypeId.any else t.parent? j := by
  rw [ClassTable.parent?, cut_record]
  split
  · next heq =>
    obtain ⟨r, hr⟩ := ClassTable.exists_record hlast
    rw [← heq, hr]
    rfl
  · rfl

theorem cut_relinks (hlast : ¬ last < TypeId.first) : Relinks t (cut t last) := by
  refine ⟨cut_size t last, fun id hid => ?_, fun id r hr => ?_⟩
  · rw [cut_record, if_neg]
    rintro rfl
    exact hlast hid
  · rw [cut_record, hr]
    split
    · exact ⟨_, rfl, .inr rfl⟩
    · exact ⟨_, rfl, .inl rfl⟩

/-- A chain that does not go through the class of the cut stays. -/
theorem grounded_kept (hlast : ¬ t.Grounded last) (hlt : last < t.size) (h : t.Grounded v) :
    (cut t last).Grounded v := by
  obtain ⟨l, hl⟩ := h
  refine ⟨l.map id, hl.map id fun j hj => ?_⟩
  have hne : last ≠ j := by
    rintro rfl
    obtain ⟨l', hl', _⟩ := hl.suffix hj
    exact hlast ⟨l', hl'⟩
  rw [id, cut_parent hlt, if_neg hne, Option.map_id]
  rfl

/-- The classes of the path lead to the class of the cut, and through it to the root. -/
theorem path_grounded {a : Nat} (hlt : last < t.size) (hpath : Climbed t (a :: rest))
    (hnot : last ∉ rest) (ha : (cut t last).Grounded a) :
    ∀ v ∈ a :: rest, (cut t last).Grounded v := by
  induction rest generalizing a with
  | nil => exact List.forall_mem_singleton.mpr ha
  | cons b rest ih =>
    obtain ⟨hparent, hrest⟩ := climbed_cons.mp hpath
    rw [List.mem_cons, not_or] at hnot
    have hb : (cut t last).Grounded b := by
      obtain ⟨l, hl⟩ := ha
      exact ⟨_, .link (by rw [cut_parent hlt, if_neg hnot.1, hparent]) hl⟩
    exact List.forall_mem_cons.mpr ⟨ha, ih hrest hnot.2 hb⟩

/-- The cut of a cycle that a climb has closed. -/
theorem cut_searched (h : Searched s) (hpath : Climbed s.table (c :: last :: rest))
    (hc : c ∈ last :: rest) (hnodup : (last :: rest).Nodup) (errors : List SemanticError) :
    Searched ⟨cut s.table last, last :: rest ++ s.visited, errors⟩ ∧ Relinks s.table (cut s.table last) ∧
      (∀ v, s.table.Grounded v → (cut s.table last).Grounded v) ∧
      ∀ v ∈ last :: rest, (cut s.table last).Grounded v := by
  have hnone := last_not_grounded hpath hc
  obtain ⟨hparent, hrest⟩ := climbed_cons.mp hpath
  have hlt : last < s.table.size := ClassTable.lt_of_parent hparent
  have huser : ¬ last < TypeId.first := fun hlt => hnone (standard_chain h.builtin hlt)
  have hkept (v : Nat) (hv : s.table.Grounded v) : (cut s.table last).Grounded v :=
    grounded_kept hnone hlt hv
  have hlast : (cut s.table last).Grounded last := by
    obtain ⟨l, hl⟩ := hkept TypeId.any (standard_chain h.builtin (by decide))
    exact ⟨_, .link (by rw [cut_parent hlt, if_pos rfl]) hl⟩
  have hall := path_grounded hlt hrest (List.nodup_cons.mp hnodup).1 hlast
  have hrelinks : Relinks s.table (cut s.table last) := cut_relinks huser
  refine ⟨⟨fun id hid => (hrelinks.builtin id hid).trans (h.builtin id hid), hrelinks.size ▸ h.large,
    fun j p hp => ?_, fun v hv => ?_⟩, hrelinks, hkept, hall⟩
  · have hp' : (cut s.table last).parent? j = some p := hp
    rw [cut_parent hlt] at hp'
    show p < (cut s.table last).size
    rw [cut_size]
    split at hp'
    · cases hp'
      exact Nat.lt_of_lt_of_le (by decide) h.large
    · exact h.parent_lt j p hp'
  · rcases List.mem_append.mp hv with hv | hv
    · exact hall v hv
    · exact hkept v (h.visited v hv)

/-- One more climb: what ends still ends, and the chain from its start ends as well. -/
theorem climbFrom_searched {start : Nat} (h : Searched s) (hstart : start < s.table.size) :
    Searched (s.climbFrom start) ∧ Relinks s.table (s.climbFrom start).table ∧
      (∀ v, s.table.Grounded v → (s.climbFrom start).table.Grounded v) ∧
      (s.climbFrom start).table.Grounded start := by
  unfold CycleSearch.climbFrom
  split
  · next path hclimb =>
    obtain ⟨hchain, hpath⟩ := climb_ends h.parent_lt h.visited hstart List.nodup_nil (by simp)
      (by simp) hclimb
    refine ⟨⟨h.builtin, h.large, h.parent_lt, fun v hv => ?_⟩, .refl, fun _ hv => hv, hchain⟩
    rcases List.mem_append.mp hv with hv | hv
    · exact (hpath v hv).resolve_left (by simp)
    · exact h.visited v hv
  · next path c hclimb =>
    obtain ⟨hnodup, hpath, hc, hsub⟩ := climb_closes List.nodup_nil (List.isChain_singleton _) hclimb
    match path with
    | last :: rest =>
      obtain ⟨hsearched, hrelinks, hkept, hall⟩ := cut_searched h hpath hc hnodup _
      exact ⟨hsearched, hrelinks, hkept, hall start (hsub start List.mem_cons_self)⟩

theorem climbs_searched {ids : List Nat} (h : Searched s) (hids : ∀ id ∈ ids, id < s.table.size) :
    Searched (ids.foldl CycleSearch.climbFrom s) ∧
      Relinks s.table (ids.foldl CycleSearch.climbFrom s).table ∧
      (∀ v, s.table.Grounded v → (ids.foldl CycleSearch.climbFrom s).table.Grounded v) ∧
      ∀ id ∈ ids, (ids.foldl CycleSearch.climbFrom s).table.Grounded id := by
  induction ids generalizing s with
  | nil => exact ⟨h, .refl, fun _ hv => hv, by simp⟩
  | cons id ids ih =>
    obtain ⟨hid, hids⟩ := List.forall_mem_cons.mp hids
    obtain ⟨hfirst, hrelinks, hkept, hstart⟩ := climbFrom_searched h hid
    obtain ⟨hrest, hrelinks', hkept', hall⟩ := ih hfirst (by rwa [hrelinks.size])
    exact ⟨hrest, hrelinks.trans hrelinks', fun v hv => hkept' v (hkept v hv),
      List.forall_mem_cons.mpr ⟨hkept' id hstart, hall⟩⟩

end CuttingLemmas

/-! ## The whole hierarchy -/

/-- The declared classes have the indices behind those of the table, in the order of the text. -/
theorem declareAll_each (t : ClassTable) (ds : List (ClassDecl Span)) :
    (declareAll t ds).classes.map (·.1) = List.range' t.size (declareAll t ds).classes.length ∧
      (declareAll t ds).table.records = t.records ++
        (declareAll t ds).classes.map fun c => .empty c.2.name.name c.2.name.span := by
  induction ds generalizing t with
  | nil => simp [declareAll]
  | cons d ds ih =>
    rw [declareAll]
    split
    · next id t' hd =>
      obtain ⟨_, rfl, rfl⟩ := ClassTable.declare_ok hd
      obtain ⟨hids, hrecords⟩ := ih ⟨t.records ++ [ClassRecord.empty d.name.name d.name.span]⟩
      have hsize : ClassTable.size ⟨t.records ++ [ClassRecord.empty d.name.name d.name.span]⟩ =
          t.size + 1 := by simp [ClassTable.size]
      refine ⟨?_, by simp [hrecords]⟩
      rw [List.map_cons, hids, hsize, List.length_cons, List.range'_succ]
    · exact ih t

/-- The declared classes of a program. -/
abbrev declared (cs : List (ClassDecl Span)) : List (TypeId × ClassDecl Span) :=
  (declareAll .standard cs).classes

theorem linkOf_lt {t : ClassTable} (hlarge : TypeId.first ≤ t.size) (d : ClassDecl Span) :
    linkOf t d < t.size := by
  unfold linkOf
  split
  · next p hp =>
    rcases parentOf_ok hp with rfl | ⟨r, hr, _⟩
    · exact Nat.lt_of_lt_of_le (by decide) hlarge
    · exact ClassTable.lt_of_record hr
  · exact Nat.lt_of_lt_of_le (by decide) hlarge

/-- The table of a program in which classes are linked to their parents, and cycles are not cut yet. -/
def linked (cs : List (ClassDecl Span)) : ClassTable :=
  (linkAll (declareAll .standard cs).table (declared cs)).1

theorem declared_ids (cs : List (ClassDecl Span)) :
    (declared cs).map (·.1) = List.range' TypeId.first (declared cs).length := by
  have hstart : ClassTable.standard.size = TypeId.first := by decide +kernel
  rw [(declareAll_each .standard cs).1, hstart]

theorem mem_declared_ids {cs : List (ClassDecl Span)} {id : Nat} : id ∈ (declared cs).map (·.1) ↔
    TypeId.first ≤ id ∧ id < TypeId.first + (declared cs).length := by
  rw [declared_ids, List.mem_range'_1]

theorem declared_bounds {cs : List (ClassDecl Span)} {c : TypeId × ClassDecl Span} (hc : c ∈ declared cs) :
    TypeId.first ≤ c.1 ∧ c.1 < TypeId.first + (declared cs).length :=
  mem_declared_ids.mp (List.mem_map_of_mem hc)

theorem declared_nodup (cs : List (ClassDecl Span)) : ((declared cs).map (·.1)).Nodup :=
  declared_ids cs ▸ List.nodup_range'

/-- The table behind the declarations: the built-in classes, then the declared ones. -/
theorem declared_each (cs : List (ClassDecl Span)) :
    (declareAll .standard cs).table.size = TypeId.first + (declared cs).length ∧
    (∀ id : Nat, id < TypeId.first →
      (declareAll .standard cs).table.record? id = ClassTable.standard.record? id) ∧
    ∀ c ∈ declared cs, (declareAll .standard cs).table.record? c.1 =
      some (ClassRecord.empty c.2.name.name c.2.name.span) := by
  have hrecords : (declareAll .standard cs).table.records = ClassTable.standard.records ++
      ((declared cs).map (·.2)).map fun d => ClassRecord.empty d.name.name d.name.span := by
    rw [(declareAll_each .standard cs).2, List.map_map]
    rfl
  obtain ⟨hsize, hstandard, huser⟩ := record_declared hrecords
  rw [List.length_map] at hsize
  refine ⟨hsize, hstandard, fun c hc => ?_⟩
  obtain ⟨i, hi, rfl⟩ := List.mem_iff_getElem.mp hc
  have hid : (declared cs)[i].1 = TypeId.first + i := by
    have hget := congrArg (·[i]?) (declared_ids cs)
    simpa [hi] using hget
  rw [hid]
  exact huser i (declared cs)[i].2 (by simp [hi])

/-- The linked classes: the built-in ones as they are, and behind them the declared ones, each without
members and with the parent that it names. -/
theorem linked_each (cs : List (ClassDecl Span)) :
    (linked cs).size = TypeId.first + (declared cs).length ∧
    (∀ id : Nat, id < TypeId.first → (linked cs).record? id = ClassTable.standard.record? id) ∧
    (∀ d, linkOf (declareAll .standard cs).table d < (linked cs).size) ∧
    ∀ c ∈ declared cs, (linked cs).record? c.1 = some { ClassRecord.empty c.2.name.name c.2.name.span with
      parent := some (linkOf (declareAll .standard cs).table c.2) } := by
  obtain ⟨hsize, hstandard, huser⟩ := declared_each cs
  obtain ⟨hsize', _, hother, heach, _⟩ :=
    linkAll_each (t := (declareAll .standard cs).table) (declared_nodup cs)
  have hlarge : TypeId.first ≤ (declareAll .standard cs).table.size := hsize ▸ Nat.le_add_right _ _
  refine ⟨hsize'.trans hsize, fun id hid => ?_, fun d => hsize' ▸ linkOf_lt hlarge d, fun c hc => ?_⟩
  · refine (hother id fun hmem => ?_).trans (hstandard id hid)
    exact Nat.not_le_of_lt hid (mem_declared_ids.mp hmem).1
  · refine (heach c hc).trans ?_
    rw [huser c hc]
    rfl

theorem declared_lt_linked (cs : List (ClassDecl Span)) : ∀ id ∈ (declared cs).map (·.1), id < (linked cs).size :=
  fun _ hid => (linked_each cs).1 ▸ (mem_declared_ids.mp hid).2

/-- Declared classes are linked to classes that may be inherited from. -/
theorem linked_inheritable (cs : List (ClassDecl Span)) (d : ClassDecl Span) :
    (linked cs).Inheritable (linkOf (declareAll .standard cs).table d) := by
  obtain ⟨hsize, hstandard, _⟩ := declared_each cs
  obtain ⟨hsize', _⟩ := linked_each cs
  unfold linkOf
  split
  · next p hp => exact linked_parent (hsize.trans hsize'.symm) hstandard hp
  · exact .inl rfl

theorem linked_searched (cs : List (ClassDecl Span)) : Searched ⟨linked cs, [], []⟩ := by
  obtain ⟨hsize, hstandard, hlt, huser⟩ := linked_each cs
  have hlarge : TypeId.first ≤ (linked cs).size := hsize ▸ Nat.le_add_right _ _
  refine ⟨hstandard, hlarge, fun j p hp => ?_, by simp⟩
  have hp' : (linked cs).parent? j = some p := hp
  by_cases hj : j < TypeId.first
  · rw [standard_parent hstandard hj hp']
    exact Nat.lt_of_lt_of_le (by decide) hlarge
  · have hmem : j ∈ (declared cs).map (·.1) := by
      have hlt := ClassTable.lt_of_parent hp'
      rw [hsize] at hlt
      exact mem_declared_ids.mpr ⟨Nat.le_of_not_lt hj, hlt⟩
    obtain ⟨c, hc, rfl⟩ := List.mem_map.mp hmem
    rw [ClassTable.parent_of_record (huser c hc)] at hp'
    cases hp'
    exact hlt c.2

/-- The search for cycles, once all declared classes are climbed from. -/
def searched (cs : List (ClassDecl Span)) : CycleSearch :=
  ((declared cs).map (·.1)).foldl CycleSearch.climbFrom ⟨linked cs, [], []⟩

theorem build_table (cs : List (ClassDecl Span)) : (build cs).table = (searched cs).table := rfl

/-- Whatever classes are declared, the hierarchy has the built-in classes as they are and behind them the
declared ones, each without members and with a parent that may be inherited from; and every chain of parents
ends. -/
theorem build_rooted (cs : List (ClassDecl Span)) : (build cs).table.Rooted ∧
    (build cs).table.size = TypeId.first + (declared cs).length ∧
    (∀ id : Nat, id < TypeId.first → (build cs).table.record? id = ClassTable.standard.record? id) ∧
    ∀ c ∈ declared cs, ∃ p, (build cs).table.Inheritable p ∧ (build cs).table.record? c.1 =
      some { ClassRecord.empty c.2.name.name c.2.name.span with parent := some p } := by
  obtain ⟨hsize, hstandard, _, huser⟩ := linked_each cs
  obtain ⟨hsearched, hrelinks, _, hgrounded⟩ :=
    climbs_searched (linked_searched cs) (declared_lt_linked cs)
  rw [build_table, searched]
  generalize ((declared cs).map (·.1)).foldl CycleSearch.climbFrom ⟨linked cs, [], []⟩ = s at *
  refine ⟨⟨fun id hid => ?_, hsearched.parent_lt⟩, hrelinks.size.trans hsize, hsearched.builtin,
    fun c hc => ?_⟩
  · by_cases hb : id < TypeId.first
    · exact standard_chain hsearched.builtin hb
    · have hid' : id < TypeId.first + (declared cs).length := by rwa [hrelinks.size, hsize] at hid
      exact hgrounded id (mem_declared_ids.mpr ⟨Nat.le_of_not_lt hb, hid'⟩)
  · obtain ⟨parent, hr, rfl | rfl⟩ := hrelinks.each _ _ (huser c hc)
    · refine ⟨_, ?_, hr⟩
      rw [ClassTable.Inheritable, hrelinks.size]
      exact linked_inheritable cs c.2
    · exact ⟨_, .inl rfl, hr⟩

end Hierarchy

end ClassLang
