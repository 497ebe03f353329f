import ClassLang.Proofs.Ascent
import ClassLang.Proofs.Cutting

/-!
# Every cycle is found once

The search for cycles climbs from one class after the other, and it changes the links that it follows. Still
it finds each cycle of the linked classes exactly once (`Hierarchy.cycles_cut`). The classes met so far are
closed under parents, so a cycle is met as a whole, and a climb stops before it meets it again. Only links
of classes that were met are cut; all others are as they were linked, so a cycle of the table in the midst
of the search is one of the linked classes, and the other way round.
-/

namespace ClassLang

/-! ## Walks on a cycle -/

namespace Ascends

variable {parent? parent' : Nat → Option Nat} {i j v w : Nat}

/-- From wherever the parents lead on a cycle, they lead back. -/
theorem returns (h : Ascends parent? v w) (hv : OnCycle parent? v) : Ascends parent? w v := by
  induction h with
  | refl => exact .refl
  | @tail u w _ hw ih =>
    rcases ih.cases_head with rfl | ⟨p, hp, hpv⟩
    · obtain ⟨p, hp, hpv⟩ := hv
      rw [hw] at hp
      cases hp
      exact hpv
    · rw [hw] at hp
      cases hp
      exact hpv

theorem onCycle (h : Ascends parent? v w) (hv : OnCycle parent? v) : OnCycle parent? w := by
  rcases (h.returns hv).cases_head with rfl | ⟨p, hp, hpv⟩
  · exact hv
  · exact ⟨p, hp, hpv.trans h⟩

/-- Walks that meet no entry whose parent is changed stay. -/
theorem transfer (h : Ascends parent? i j) (hsame : ∀ k, Ascends parent? i k → parent' k = parent? k) :
    Ascends parent' i j := by
  induction h with
  | refl => exact .refl
  | @tail u w hu hw ih => exact ih.tail ((hsame u hu).trans hw)

theorem mem_of_closed {visited : List Nat} (h : Ascends parent? i j)
    (hclosed : ∀ v ∈ visited, ∀ p, parent? v = some p → p ∈ visited) (hi : i ∈ visited) :
    j ∈ visited := by
  induction h with
  | refl => exact hi
  | tail _ hw ih => exact hclosed _ ih _ hw

theorem mem_chain {l : List Nat} (h : Ascends parent? i j) (hl : Chain parent? i l) : j ∈ l :=
  h.mem_of_closed (fun _ hv _ hp => hl.parent_mem hv hp) hl.head_mem

end Ascends

/-- Parents that end close no cycle. -/
theorem Chain.not_onCycle {parent? : Nat → Option Nat} {i : Nat} {l : List Nat} (h : Chain parent? i l) :
    ¬ OnCycle parent? i := by
  rintro ⟨p, hp, hpi⟩
  have hnodup := h.nodup
  cases h with
  | root hn =>
    rw [hn] at hp
    cases hp
  | link hp' hl =>
    rw [hp] at hp'
    cases hp'
    exact (List.nodup_cons.mp hnodup).1 (hpi.mem_chain hl)

namespace Hierarchy

open CuttingLemmas HierarchyLemmas

/-! ## What the search has found -/

/-- The error for a cycle that closes at a class. -/
def cycleError (t : ClassTable) (id : TypeId) : SemanticError :=
  ⟨.cyclicInheritance (t.name id), ((t.record? id).map (·.span)).getD .none⟩

/-- The search among the linked classes has found some cycles, each told by the class that is reported and the
one behind it, whose link to it is cut. -/
structure Found (t : ClassTable) (s : CycleSearch) (cuts : List (TypeId × TypeId)) : Prop where
  errors : s.errors = cuts.map fun c => cycleError t c.1
  record : ∀ id : TypeId, s.table.record? id = if id ∈ cuts.map (·.2)
    then (t.record? id).map ({ · with parent := some TypeId.any }) else t.record? id
  link : ∀ c ∈ cuts, t.parent? c.2 = some c.1 ∧ OnCycle t.parent? c.2
  visited : ∀ c ∈ cuts, c.2 ∈ s.visited
  closed : ∀ v ∈ s.visited, ∀ p, t.parent? v = some p → p ∈ s.visited
  once : ∀ v ∈ s.visited, OnCycle t.parent? v → ∃! i : Nat, ∃ c : TypeId × TypeId, cuts[i]? = some c ∧
    Ascends t.parent? v c.1

namespace CyclesLemmas

variable {t : ClassTable} {rest : List TypeId} {last v : TypeId}

/-- The classes of a climb are new, their parents are met with them, and so is the class it starts from. -/
theorem climb_path {visited path path' : List TypeId} {bound id : Nat} {r : Option TypeId}
    (hlt : ∀ j p, t.parent? j = some p → p < t.size) (hid : id < t.size) (hnodup : path.Nodup)
    (hpathlt : ∀ v ∈ path, v < t.size) (hbound : path.length + bound = t.size + 1)
    (hnew : ∀ v ∈ path, v ∉ visited) (hnext : ∀ v ∈ path, ∀ p, t.parent? v = some p → p ∈ id :: path)
    (h : climb t visited bound path id = (path', r)) :
    (∀ v ∈ path', v ∉ visited) ∧ (∀ v ∈ path', ∀ p, t.parent? v = some p → p ∈ path' ++ visited) ∧
      ∀ v ∈ id :: path, v ∈ path' ++ visited := by
  induction bound generalizing path id with
  | zero =>
    -- A path without repetition cannot have more classes than there are.
    have hle := length_le_of_nodup hnodup hpathlt
    omega
  | succ bound ih =>
    rw [climb] at h
    have hstop (hmet : id ∈ path ++ visited) : ∀ q ∈ id :: path, q ∈ path ++ visited :=
      List.forall_mem_cons.mpr ⟨hmet, fun q hq => List.mem_append_left _ hq⟩
    split at h
    · next hmem =>
      have hall := hstop (List.mem_append_left _ hmem)
      cases h
      exact ⟨hnew, fun v hv p hp => hall p (hnext v hv p hp), hall⟩
    · next hnot =>
      split at h
      · next hseen =>
        have hall := hstop (List.mem_append_right _ hseen)
        cases h
        exact ⟨hnew, fun v hv p hp => hall p (hnext v hv p hp), hall⟩
      · next hunseen =>
        have hnew' : ∀ v ∈ id :: path, v ∉ visited := List.forall_mem_cons.mpr ⟨hunseen, hnew⟩
        split at h
        · next p hp =>
          obtain ⟨hresult, hclosed, hall⟩ := ih (hlt _ _ hp) (List.nodup_cons.mpr ⟨hnot, hnodup⟩)
            (List.forall_mem_cons.mpr ⟨hid, hpathlt⟩) (by rw [List.length_cons]; omega) hnew'
            (List.forall_mem_cons.mpr ⟨fun q hq => by
              rw [hp] at hq
              cases hq
              exact List.mem_cons_self, fun v hv q hq => List.mem_cons_of_mem _ (hnext v hv q hq)⟩) h
          exact ⟨hresult, hclosed, fun v hv => hall v (List.mem_cons_of_mem _ hv)⟩
        · next hnone =>
          cases h
          refine ⟨hnew', List.forall_mem_cons.mpr ⟨fun q hq => ?_, fun v hv q hq => ?_⟩,
            fun v hv => List.mem_append_left _ hv⟩
          · rw [hnone] at hq
            cases hq
          · exact List.mem_append_left _ (hnext v hv q hq)

theorem climbed_ascends (h : Climbed t (last :: rest)) (hv : v ∈ last :: rest) :
    Ascends t.parent? v last := by
  induction rest generalizing last with
  | nil =>
    rw [List.mem_singleton.mp hv]
    exact .refl
  | cons b rest ih =>
    rcases List.mem_cons.mp hv with rfl | hv
    · exact .refl
    · obtain ⟨hparent, hrest⟩ := climbed_cons.mp h
      exact (ih hrest hv).tail hparent

end CyclesLemmas

open CyclesLemmas

variable {t : ClassTable} {s : CycleSearch} {cuts : List (TypeId × TypeId)}
  {path rest : List TypeId} {c last start v : TypeId}

/-- The class that is reported for a cycle is on it. -/
theorem Found.next_onCycle {d : TypeId × TypeId} (h : Found t s cuts) (hd : d ∈ cuts) :
    OnCycle t.parent? d.1 := by
  obtain ⟨hlink, hcycle⟩ := h.link d hd
  exact Ascends.onCycle (.head hlink .refl) hcycle

/-- Classes that were not met have the parents they were linked to. -/
theorem Found.parent (h : Found t s cuts) (hv : v ∉ s.visited) : s.table.parent? v = t.parent? v := by
  rw [ClassTable.parent?, h.record, if_neg]
  · rfl
  · intro hmem
    obtain ⟨c, hc, rfl⟩ := List.mem_map.mp hmem
    exact hv (h.visited c hc)

theorem Found.name (h : Found t s cuts) (id : TypeId) :
    (s.table.record? id).map (fun r => (r.name, r.span)) = (t.record? id).map fun r => (r.name, r.span) := by
  rw [h.record]
  split
  · rw [Option.map_map]
    rfl
  · rfl

/-- A cycle that was not met is one of the table in the midst of the search as well. -/
theorem Found.onCycle (h : Found t s cuts) (hv : v ∉ s.visited) (hcycle : OnCycle t.parent? v) :
    OnCycle s.table.parent? v := by
  have hsame : ∀ k, Ascends t.parent? v k → s.table.parent? k = t.parent? k := fun k hk =>
    h.parent fun hmem => hv ((hk.returns hcycle).mem_of_closed h.closed hmem)
  obtain ⟨p, hp, hpv⟩ := hcycle
  exact ⟨p, (hsame v .refl).trans hp, hpv.transfer fun k hk => hsame k (.head hp hk)⟩

/-- A climb that closes no cycle meets none. -/
theorem Found.ends (h : Found t s cuts) (hnew : ∀ v ∈ path, v ∉ s.visited)
    (hclosed : ∀ v ∈ path, ∀ p, s.table.parent? v = some p → p ∈ path ++ s.visited)
    (hends : ∀ v ∈ path, s.table.Grounded v) : Found t { s with visited := path ++ s.visited } cuts := by
  refine ⟨h.errors, h.record, h.link, fun c hc => List.mem_append_right _ (h.visited c hc),
    fun v hv p hp => ?_, fun v hv hcycle => ?_⟩
  · rcases List.mem_append.mp hv with hv | hv
    · exact hclosed v hv p ((h.parent (hnew v hv)).trans hp)
    · exact List.mem_append_right _ (h.closed v hv p hp)
  · rcases List.mem_append.mp hv with hv | hv
    · obtain ⟨l, hl⟩ := hends v hv
      exact absurd (h.onCycle (hnew v hv) hcycle) hl.not_onCycle
    · exact h.once v hv hcycle

/-- A cycle that a climb closes is a new one: its classes are in no cycle that was found before. -/
theorem Found.once_more (h : Found t s cuts) (hnew : ∀ v ∈ path, v ∉ s.visited) (hc : c ∈ path)
    (hup : ∀ v ∈ path, Ascends t.parent? v c) : ∀ v ∈ path ++ s.visited, OnCycle t.parent? v →
      ∃! i : Nat, ∃ d : TypeId × TypeId, (cuts ++ [(c, last)])[i]? = some d ∧ Ascends t.parent? v d.1 := by
  have hcases (i : Nat) (d : TypeId × TypeId) (hd : (cuts ++ [(c, last)])[i]? = some d) :
      cuts[i]? = some d ∨ i = cuts.length ∧ d = (c, last) := by
    rw [List.getElem?_append] at hd
    split at hd
    · exact .inl hd
    · next hge =>
      obtain ⟨hlt, rfl⟩ := List.getElem?_eq_some_iff.mp hd
      rw [List.length_singleton] at hlt
      exact .inr ⟨by omega, by simp⟩
  intro v hv hcycle
  rcases List.mem_append.mp hv with hv | hv
  · refine ⟨cuts.length, ⟨(c, last), by simp, hup v hv⟩, fun i ⟨d, hd, hvd⟩ => ?_⟩
    rcases hcases i d hd with hold | ⟨rfl, _⟩
    · -- From a cycle that was met before, the parents lead to nothing new.
      have hmem := List.mem_of_getElem? hold
      have hmet := h.closed _ (h.visited d hmem) _ (h.link d hmem).1
      exact absurd ((hvd.returns hcycle).mem_of_closed h.closed hmet) (hnew v hv)
    · rfl
  · obtain ⟨i, ⟨d, hd, hvd⟩, hunique⟩ := h.once v hv hcycle
    have hi := (List.getElem?_eq_some_iff.mp hd).1
    refine ⟨i, ⟨d, (List.getElem?_append_left hi).trans hd, hvd⟩, fun j ⟨e, he, hve⟩ => ?_⟩
    rcases hcases j e he with hold | ⟨_, rfl⟩
    · exact hunique j ⟨e, hold, hve⟩
    · exact absurd (hve.mem_of_closed h.closed hv) (hnew c hc)

/-- The cut of a cycle that a climb closes. -/
theorem Found.closes (h : Found t s cuts) (hnew : ∀ v ∈ last :: rest, v ∉ s.visited)
    (hclosed : ∀ v ∈ last :: rest, ∀ p, s.table.parent? v = some p → p ∈ last :: rest ++ s.visited)
    (hpath : Climbed s.table (c :: last :: rest)) (hc : c ∈ last :: rest) :
    Found t ⟨cut s.table last, last :: rest ++ s.visited, s.errors ++ [cycleError s.table c]⟩
      (cuts ++ [(c, last)]) := by
  have hsame : ∀ v ∈ last :: rest, s.table.parent? v = t.parent? v := fun v hv => h.parent (hnew v hv)
  have hmem : ∀ v ∈ c :: last :: rest, v ∈ last :: rest := List.forall_mem_cons.mpr ⟨hc, fun _ hv => hv⟩
  have hpath' : Climbed t (c :: last :: rest) :=
    hpath.imp_of_mem_imp fun a b _ hb hab => (hsame b (hmem b hb)).symm.trans hab
  obtain ⟨hlink, hrest⟩ := climbed_cons.mp hpath'
  have hup : ∀ v ∈ last :: rest, Ascends t.parent? v c := fun v hv => (climbed_ascends hrest hv).tail hlink
  have hlast : last ∉ cuts.map (·.2) := by
    intro hlast
    obtain ⟨d, hd, heq⟩ := List.mem_map.mp hlast
    exact hnew last List.mem_cons_self (heq ▸ h.visited d hd)
  refine ⟨?_, fun id => ?_, ?_, ?_, fun v hv p hp => ?_, h.once_more hnew hc hup⟩
  · have hname := h.name c
    have herror : cycleError s.table c = cycleError t c := by
      cases hs : s.table.record? c <;> cases ht : t.record? c <;> simp_all [cycleError, ClassTable.name]
    rw [h.errors, herror, List.map_append]
    rfl
  · have hcut : id ∈ (cuts ++ [(c, last)]).map (·.2) ↔ id ∈ cuts.map (·.2) ∨ id = last := by
      rw [List.map_append, List.mem_append, List.map_singleton, List.mem_singleton]
    rw [cut_record, h.record]
    by_cases heq : last = id
    · subst heq
      rw [if_pos rfl, if_neg hlast, if_pos (hcut.mpr (.inr rfl))]
    · simp only [if_neg heq, hcut, Ne.symm heq, or_false]
  · refine List.forall_mem_append.mpr ⟨h.link, List.forall_mem_singleton.mpr ⟨hlink, c, hlink, ?_⟩⟩
    exact climbed_ascends hrest hc
  · refine List.forall_mem_append.mpr ⟨fun d hd => List.mem_append_right _ (h.visited d hd), ?_⟩
    exact List.forall_mem_singleton.mpr (List.mem_append_left _ List.mem_cons_self)
  · rcases List.mem_append.mp hv with hv | hv
    · exact hclosed v hv p ((hsame v hv).trans hp)
    · exact List.mem_append_right _ (h.closed v hv p hp)

/-- One more climb. -/
theorem Found.climbFrom (h : Found t s cuts) (hs : Searched s) (hstart : start < s.table.size) :
    ∃ cuts', Found t (s.climbFrom start) cuts' ∧ start ∈ (s.climbFrom start).visited ∧
      ∀ v ∈ s.visited, v ∈ (s.climbFrom start).visited := by
  unfold CycleSearch.climbFrom
  split
  · next path hclimb =>
    obtain ⟨hnew, hclosed, hall⟩ := climb_path hs.parent_lt hstart List.nodup_nil (by simp) (by simp)
      (by simp) (by simp) hclimb
    obtain ⟨_, hends⟩ := climb_ends hs.parent_lt hs.visited hstart List.nodup_nil (by simp) (by simp) hclimb
    refine ⟨cuts, h.ends hnew hclosed fun v hv => (hends v hv).resolve_left List.not_mem_nil,
      hall start List.mem_cons_self, fun v hv => List.mem_append_right _ hv⟩
  · next path c hclimb =>
    obtain ⟨hnew, hclosed, hall⟩ := climb_path hs.parent_lt hstart List.nodup_nil (by simp) (by simp)
      (by simp) (by simp) hclimb
    obtain ⟨_, hpath, hc, _⟩ := climb_closes List.nodup_nil (List.isChain_singleton _) hclimb
    match path with
    | last :: rest =>
      exact ⟨_, h.closes hnew hclosed hpath hc, hall start List.mem_cons_self,
        fun v hv => List.mem_append_right _ hv⟩

/-- All climbs of a search. -/
theorem Found.climbs {ids : List TypeId} (h : Found t s cuts) (hs : Searched s)
    (hids : ∀ id ∈ ids, id < s.table.size) : ∃ cuts',
      Found t (ids.foldl CycleSearch.climbFrom s) cuts' ∧
      (∀ v ∈ s.visited, v ∈ (ids.foldl CycleSearch.climbFrom s).visited) ∧
      ∀ id ∈ ids, id ∈ (ids.foldl CycleSearch.climbFrom s).visited := by
  induction ids generalizing s cuts with
  | nil => exact ⟨cuts, h, fun _ hv => hv, by simp⟩
  | cons id ids ih =>
    obtain ⟨hid, hids⟩ := List.forall_mem_cons.mp hids
    obtain ⟨_, hfirst, hmet, hkept⟩ := h.climbFrom hs hid
    obtain ⟨hsearched, hrelinks, _⟩ := climbFrom_searched hs hid
    obtain ⟨cuts', hrest, hkept', hall⟩ := ih hfirst hsearched (by rwa [hrelinks.size])
    exact ⟨cuts', hrest, fun v hv => hkept' v (hkept v hv),
      List.forall_mem_cons.mpr ⟨hkept' id hmet, hall⟩⟩

/-! ## The whole hierarchy -/

theorem linked_any (cs : List (ClassDecl Span)) : (linked cs).parent? TypeId.any = none := by
  obtain ⟨_, hstandard, _⟩ := linked_each cs
  obtain ⟨r, hr, _, _, hnone⟩ := standard_record TypeId.any (by decide)
  rw [ClassTable.parent_of_record ((hstandard _ (by decide)).trans hr)]
  exact hnone rfl

/-- The classes with an index behind the built-in ones are the declared ones. -/
theorem exists_declared {cs : List (ClassDecl Span)} {id : Nat} (h : TypeId.first ≤ id)
    (hlt : id < (linked cs).size) : ∃ c ∈ declared cs, c.1 = id := by
  obtain ⟨hsize, _⟩ := linked_each cs
  have hid : id ∈ (declared cs).map (·.1) := mem_declared_ids.mpr ⟨h, hsize ▸ hlt⟩
  simpa using hid

/-- No cycle goes through a built-in class. -/
theorem OnCycle.declared {cs : List (ClassDecl Span)} {id : Nat} (h : OnCycle (linked cs).parent? id) :
    ∃ c ∈ declared cs, c.1 = id := by
  obtain ⟨_, hstandard, _⟩ := linked_each cs
  refine exists_declared (Nat.le_of_not_lt fun hlt => ?_) ?_
  · obtain ⟨l, hl⟩ := standard_chain hstandard hlt
    exact hl.not_onCycle h
  · obtain ⟨p, hp, _⟩ := h
    exact ClassTable.lt_of_parent hp

/-- The parents of a class that may be inherited from end at the root. -/
theorem build_ends {cs : List (ClassDecl Span)} {id : Nat} (h : (build cs).table.Inheritable id)
    (hid : id < (build cs).table.size) :
    ∃ l, Chain (build cs).table.parent? id l ∧ l.getLast? = some TypeId.any := by
  obtain ⟨hrooted, hsize, hstandard, huser⟩ := build_rooted cs
  have hany : (build cs).table.parent? TypeId.any = none := by
    obtain ⟨r, hr, _, _, hnone⟩ := standard_record TypeId.any (by decide)
    rw [ClassTable.parent_of_record ((hstandard _ (by decide)).trans hr)]
    exact hnone rfl
  have hconsole : (build cs).table.parent? TypeId.console = some TypeId.any := by
    rw [ClassTable.parent?, hstandard _ (by decide)]
    decide +kernel
  have hparent : ∀ id, TypeId.first ≤ id → id < (build cs).table.size →
      ∃ p, (build cs).table.Inheritable p ∧ (build cs).table.parent? id = some p := by
    intro id hfirst hlt
    obtain ⟨c, hc, rfl⟩ := exists_declared hfirst (by rwa [hsize, ← (linked_each cs).1] at hlt)
    obtain ⟨p, hp, hr⟩ := huser c hc
    exact ⟨p, hp, ClassTable.parent_of_record hr⟩
  induction id, hid using hrooted.induct with
  | root id hid hnone =>
    rcases h with rfl | rfl | ⟨hfirst, hlt⟩
    · exact ⟨_, .root hany, rfl⟩
    · rw [hconsole] at hnone
      cases hnone
    · obtain ⟨p, _, hp⟩ := hparent id hfirst hlt
      rw [hnone] at hp
      cases hp
  | link id q _ _ hq ih =>
    have hinherits : (build cs).table.Inheritable q := by
      rcases h with rfl | rfl | ⟨hfirst, hlt⟩
      · rw [hany] at hq
        cases hq
      · rw [hconsole] at hq
        cases hq
        exact .inl rfl
      · obtain ⟨p, hp, hp'⟩ := hparent id hfirst hlt
        rw [hq] at hp'
        cases hp'
        exact hp
    obtain ⟨l, hl, hlast⟩ := ih hinherits
    exact ⟨_, .link hq hl, by rw [List.getLast?_cons, hlast]; rfl⟩

theorem build_errors (cs : List (ClassDecl Span)) : (build cs).errors =
    (declareAll .standard cs).errors ++ (linkAll (declareAll .standard cs).table (declared cs)).2.map (·.2) ++
      (searched cs).errors := rfl

/-- The search has met all declared classes. -/
theorem searched_found (cs : List (ClassDecl Span)) : ∃ cuts, Found (linked cs) (searched cs) cuts ∧
    ∀ c ∈ declared cs, c.1 ∈ (searched cs).visited := by
  have hnone : Found (linked cs) ⟨linked cs, [], []⟩ [] := by
    refine ⟨rfl, fun id => rfl, nofun, nofun, nofun, nofun⟩
  obtain ⟨cuts, hfound, _, hall⟩ := hnone.climbs (linked_searched cs) (declared_lt_linked cs)
  exact ⟨cuts, hfound, fun c hc => hall c.1 (List.mem_map_of_mem hc)⟩

/-- Every cycle of the linked classes is reported once, at a class on it, and loses one link, from a class on it
to that class; all other links stay, and the parents of every declared class end at the root. -/
theorem cycles_cut (cs : List (ClassDecl Span)) : ∃ cuts : List (TypeId × TypeId),
    (build cs).errors = (declareAll .standard cs).errors ++
      (linkAll (declareAll .standard cs).table (declared cs)).2.map (·.2) ++
      cuts.map (fun c => cycleError (linked cs) c.1) ∧
    (∀ c ∈ cuts, (linked cs).parent? c.2 = some c.1 ∧ c.1 ≠ TypeId.any ∧
      OnCycle (linked cs).parent? c.1 ∧ OnCycle (linked cs).parent? c.2) ∧
    (∀ id, OnCycle (linked cs).parent? id →
      ∃! i : Nat, ∃ c : TypeId × TypeId, cuts[i]? = some c ∧ Ascends (linked cs).parent? id c.1) ∧
    (∀ id : TypeId, (build cs).table.record? id = if id ∈ cuts.map (·.2)
      then ((linked cs).record? id).map ({ · with parent := some TypeId.any })
      else (linked cs).record? id) ∧
    ∀ c ∈ declared cs, ∃ l, Chain (build cs).table.parent? c.1 l ∧ l.getLast? = some TypeId.any := by
  obtain ⟨cuts, hfound, hall⟩ := searched_found cs
  refine ⟨cuts, by rw [build_errors, hfound.errors], fun c hc => ?_, fun id hcycle => ?_, hfound.record,
    fun c hc => ?_⟩
  · obtain ⟨hlink, hcycle⟩ := hfound.link c hc
    have hnext := hfound.next_onCycle hc
    refine ⟨hlink, fun heq => ?_, hnext, hcycle⟩
    obtain ⟨p, hp, _⟩ := hnext
    rw [heq, linked_any] at hp
    cases hp
  · obtain ⟨c, hc, rfl⟩ := OnCycle.declared hcycle
    exact hfound.once c.1 (hall c hc) hcycle
  · obtain ⟨_, _, _, huser⟩ := build_rooted cs
    obtain ⟨_, _, hr⟩ := huser c hc
    have hlt := ClassTable.lt_of_record hr
    exact build_ends (.inr (.inr ⟨(declared_bounds hc).1, hlt⟩)) hlt

/-- A class that leads into a cycle of two, which comes behind it, and a class that is its own parent. -/
def looping : List (ClassDecl Span) :=
  let name (x : String) : Ident := ⟨x, .none⟩
  [⟨name "Tail", some (name "Pong"), [], .none⟩, ⟨name "Ping", some (name "Pong"), [], .none⟩,
    ⟨name "Pong", some (name "Ping"), [], .none⟩, ⟨name "Self", some (name "Self"), [], .none⟩]

/-- There are two errors, and one of them is for the cycle that the first class leads into. -/
theorem looping_cycles_cut : OnCycle (linked looping).parent? 7 ∧ ∃ cuts : List (TypeId × TypeId),
    cuts.length = 2 ∧ (build looping).errors = cuts.map (fun c => cycleError (linked looping) c.1) ∧
    ∃! i : Nat, ∃ c : TypeId × TypeId, cuts[i]? = some c ∧ Ascends (linked looping).parent? 7 c.1 := by
  have hcycle : OnCycle (linked looping).parent? 7 := by
    have hback : (linked looping).parent? 8 = some 7 := by decide +kernel
    exact ⟨8, by decide +kernel, .single hback⟩
  obtain ⟨cuts, herrors, _, honce, _⟩ := cycles_cut looping
  have hnone : (declareAll .standard looping).errors ++
      (linkAll (declareAll .standard looping).table (declared looping)).2.map (·.2) = [] := by decide +kernel
  have hlength : (build looping).errors.length = 2 := by decide +kernel
  rw [hnone, List.nil_append] at herrors
  exact ⟨hcycle, cuts, by rwa [herrors, List.length_map] at hlength, herrors, honce 7 hcycle⟩

end Hierarchy

end ClassLang
