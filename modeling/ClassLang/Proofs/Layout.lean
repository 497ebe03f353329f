import ClassLang.Proofs.Hierarchy

/-!
# Slots of fields

After `layout`, the own fields of every class lie behind those of its parent, in the order of their
declaration (`layout_placed`). Two consequences carry everything that is said about fields of instances:
a field of a class or an ancestor lies within the instance (`offset_lt`), and two such fields with the
same slot are the same field of the same class (`offset_injective`).
-/

namespace ClassLang.ClassTable

/-- The number of fields that a class inherits, if its parent is laid out. -/
def inherited? (t : ClassTable) (r : ClassRecord) : Option Nat :=
  match r.parent with
  | none => some 0
  | some p => t.fieldCount? p

/-- The fields of a class lie behind `start` inherited ones. -/
structure Placed (t : ClassTable) (r : ClassRecord) (start : Nat) : Prop where
  inherits : t.inherited? r = some start
  count : r.fieldCount = some (start + r.fields.length)
  offsets : ∀ (i : Nat) f, r.fields[i]? = some f → f.offset = start + i

/-- Every class that is laid out is laid out behind its parent. -/
def PlacedOnce (t : ClassTable) : Prop :=
  ∀ (id : Nat) r, t.record? id = some r → r.fieldCount ≠ none → ∃ start, t.Placed r start

/-- Every class is laid out behind its parent. -/
def AllPlaced (t : ClassTable) : Prop :=
  ∀ (id : Nat) r, t.record? id = some r → ∃ start, t.Placed r start

/-- A field without its slot. -/
def blankField (f : Field) : Field := { f with offset := 0 }

/-- Fields that are the same up to their slots have the same names and types. -/
theorem names_of_blank {fs gs : List Field} (h : fs.map blankField = gs.map blankField) :
    fs.map (·.name) = gs.map (·.name) ∧ fs.map (·.type) = gs.map (·.type) := by
  have hname (fs : List Field) : fs.map (·.name) = (fs.map blankField).map (·.name) := by
    simp [blankField]
  have htype (fs : List Field) : fs.map (·.type) = (fs.map blankField).map (·.type) := by
    simp [blankField]
  rw [hname, hname gs, htype, htype gs, h]
  exact ⟨rfl, rfl⟩

/-- `Lays t t'`: `t'` is `t` with some more classes laid out. -/
structure Lays (t t' : ClassTable) : Prop where
  size : t'.size = t.size
  kept : ∀ (id : Nat) r, t.record? id = some r → r.fieldCount ≠ none → t'.record? id = some r
  each : ∀ (id : Nat) r, t.record? id = some r → ∃ fields count,
    t'.record? id = some { r with fields := fields, fieldCount := count } ∧
      fields.map blankField = r.fields.map blankField

namespace LayoutLemmas

open Hierarchy.HierarchyLemmas

variable {t t' t'' : ClassTable}

theorem lays_refl : Lays t t := ⟨rfl, fun _ _ h _ => h, fun _ r h => ⟨r.fields, r.fieldCount, h, rfl⟩⟩

theorem lays_trans (h : Lays t t') (h' : Lays t' t'') : Lays t t'' where
  size := h'.size.trans h.size
  kept id r hr hc := h'.kept id r (h.kept id r hr hc) hc
  each id r hr := by
    obtain ⟨fs, c, hr', hfs⟩ := h.each id r hr
    obtain ⟨fs', c', hr'', hfs'⟩ := h'.each id _ hr'
    exact ⟨fs', c', hr'', hfs'.trans hfs⟩

theorem lays_parent (h : Lays t t') (id : Nat) : t'.parent? id = t.parent? id := by
  cases hr : t.record? id with
  | some r =>
    obtain ⟨fs, c, hr', _⟩ := h.each id r hr
    rw [parent_of_record hr, parent_of_record hr']
  | none =>
    have hlen : t.size ≤ id := List.getElem?_eq_none_iff.mp hr
    have hlen' : t'.size ≤ id := h.size.symm ▸ hlen
    have hr' : t'.record? id = none := List.getElem?_eq_none_iff.mpr hlen'
    simp [parent?, hr, hr']

theorem lays_fieldCount (h : Lays t t') {id n : Nat} (hn : t.fieldCount? id = some n) :
    t'.fieldCount? id = some n := by
  obtain ⟨r, hr, hc⟩ := Option.bind_eq_some_iff.mp hn
  simp [fieldCount?, h.kept id r hr (by simp [hc]), hc]

theorem lays_placed (h : Lays t t') {r : ClassRecord} {start : Nat} (hp : t.Placed r start) :
    t'.Placed r start := by
  refine ⟨?_, hp.count, hp.offsets⟩
  have hin := hp.inherits
  unfold inherited? at hin ⊢
  split
  · next hn => simpa [hn] using hin
  · next p hs =>
    simp only [hs] at hin
    exact lays_fieldCount h hin

theorem placeFields_length (start : Nat) (fs : List Field) :
    (ClassRecord.placeFields start fs).length = fs.length := by
  induction fs generalizing start with
  | nil => rfl
  | cons f fs ih => simp [ClassRecord.placeFields, ih]

theorem placeFields_blank (start : Nat) (fs : List Field) :
    (ClassRecord.placeFields start fs).map blankField = fs.map blankField := by
  induction fs generalizing start with
  | nil => rfl
  | cons f fs ih => simp [ClassRecord.placeFields, ih, blankField]

theorem placeFields_offset {start i : Nat} {fs : List Field} {f : Field}
    (h : (ClassRecord.placeFields start fs)[i]? = some f) : f.offset = start + i := by
  induction fs generalizing start i with
  | nil => simp [ClassRecord.placeFields] at h
  | cons g fs ih =>
    cases i with
    | zero =>
      simp only [ClassRecord.placeFields, List.getElem?_cons_zero, Option.some.injEq] at h
      subst h
      rfl
    | succ i =>
      simp only [ClassRecord.placeFields, List.getElem?_cons_succ] at h
      rw [ih h]
      omega

/-- Laying out a class that is not laid out yet. -/
theorem place_lays {id : Nat} (h : t.fieldCount? id = none) (start : Nat) :
    Lays t (t.modify id (·.place start)) := by
  refine ⟨size_modify _ _ _, fun j r hr hc => ?_, fun j r hr => ?_⟩
  · rw [record_modify, if_neg, hr]
    rintro rfl
    exact hc (by simpa [fieldCount?, hr] using h)
  · rw [record_modify, hr]
    split
    · exact ⟨_, _, rfl, placeFields_blank _ _⟩
    · exact ⟨r.fields, r.fieldCount, rfl, rfl⟩

theorem layoutOwn_lays (state : Nat × ClassTable) (id : Nat) : Lays state.2 (layoutOwn state id).2 := by
  obtain ⟨start, t⟩ := state
  simp only [layoutOwn]
  split
  · exact lays_refl
  · next hc => exact place_lays hc start

/-- Laying out changes nothing but slots, also where the parents of a class do not come to an end. -/
theorem layout_lays (t : ClassTable) : Lays t t.layout := by
  have hchain (ids : List TypeId) (state : Nat × ClassTable) :
      Lays state.2 (ids.foldl layoutOwn state).2 := by
    induction ids generalizing state with
    | nil => exact lays_refl
    | cons id ids ih => exact lays_trans (layoutOwn_lays state id) (ih _)
  have hclasses (ids : List TypeId) (t : ClassTable) : Lays t (ids.foldl layoutClass t) := by
    induction ids generalizing t with
    | nil => exact lays_refl
    | cons id ids ih =>
      refine lays_trans (?_ : Lays t (t.layoutClass id)) (ih _)
      unfold layoutClass
      split
      · exact lays_refl
      · exact hchain _ (0, t)
  exact hclasses _ t

/-- Laying out one class behind what it inherits. -/
theorem layoutOwn_ok {id start : Nat} {r : ClassRecord} (h : t.PlacedOnce)
    (hr : t.record? id = some r) (hin : t.inherited? r = some start) :
    Lays t (layoutOwn (start, t) id).2 ∧ (layoutOwn (start, t) id).2.PlacedOnce ∧
      (layoutOwn (start, t) id).2.fieldCount? id = some (layoutOwn (start, t) id).1 := by
  cases hc : t.fieldCount? id with
  | some n =>
    simp only [layoutOwn, hc]
    exact ⟨lays_refl, h, trivial⟩
  | none =>
    simp only [layoutOwn, hc, hr, Option.map_some, Option.getD_some]
    have hrec : ∀ j : Nat, (t.modify id (·.place start)).record? j =
        if id = j then some (r.place start) else t.record? j := by
      intro j
      rw [record_modify]
      split
      · next heq => rw [← heq, hr]; rfl
      · rfl
    have hlays : Lays t (t.modify id (·.place start)) := place_lays hc start
    refine ⟨hlays, fun j r' hr' hc' => ?_, ?_⟩
    · rw [hrec] at hr'
      split at hr'
      · cases hr'
        refine ⟨start, lays_placed hlays (t := t) ⟨?_, ?_, fun i f => placeFields_offset⟩⟩
        · simpa [inherited?, ClassRecord.place] using hin
        · simp [ClassRecord.place, placeFields_length]
      · obtain ⟨s, hs⟩ := h j r' hr' hc'
        exact ⟨s, lays_placed hlays hs⟩
    · rw [fieldCount?, hrec, if_pos rfl]
      rfl

/-- Laying out a chain from its root on. -/
theorem layoutChain_ok {id : Nat} {l : List Nat} (h : t.PlacedOnce) (hid : id < t.size)
    (hlt : ∀ j p, t.parent? j = some p → p < t.size) (hl : Chain t.parent? id l) :
    Lays t (l.reverse.foldl layoutOwn (0, t)).2 ∧ (l.reverse.foldl layoutOwn (0, t)).2.PlacedOnce ∧
      (l.reverse.foldl layoutOwn (0, t)).2.fieldCount? id =
        some (l.reverse.foldl layoutOwn (0, t)).1 := by
  induction hl with
  | @root id hn =>
    obtain ⟨r, hr⟩ := exists_record hid
    rw [parent_of_record hr] at hn
    exact layoutOwn_ok h hr (by simp [inherited?, hn])
  | @link id p l hp hl ih =>
    obtain ⟨hlays, hplaced, hcount⟩ := ih (hlt _ _ hp)
    rw [List.reverse_cons, List.foldl_append]
    generalize l.reverse.foldl layoutOwn (0, t) = state at *
    obtain ⟨start, t₁⟩ := state
    obtain ⟨r, hr⟩ := exists_record (show id < t₁.size from hlays.size ▸ hid)
    have hparent : r.parent = some p := by rw [← parent_of_record hr, lays_parent hlays, hp]
    obtain ⟨hlays', hplaced', hcount'⟩ :=
      layoutOwn_ok hplaced hr (by simpa [inherited?, hparent] using hcount)
    exact ⟨lays_trans hlays hlays', hplaced', hcount'⟩

theorem layoutClass_ok {id : Nat} (hroot : t.Rooted) (h : t.PlacedOnce) (hid : id < t.size) :
    Lays t (t.layoutClass id) ∧ (t.layoutClass id).PlacedOnce ∧
      (t.layoutClass id).fieldCount? id ≠ none := by
  unfold layoutClass
  cases hc : t.fieldCount? id with
  | some n => exact ⟨lays_refl, h, by simp [hc]⟩
  | none =>
    obtain ⟨hlays, hplaced, hcount⟩ :=
      layoutChain_ok h hid hroot.parent_lt (hroot.ancestors_chain hid)
    exact ⟨hlays, hplaced, by rw [hcount]; exact Option.some_ne_none _⟩

theorem lays_rooted (h : Lays t t') (hroot : t.Rooted) : t'.Rooted := by
  have hparent : t'.parent? = t.parent? := funext (lays_parent h)
  exact ⟨by rw [hparent, h.size]; exact hroot.chain, by rw [hparent, h.size]; exact hroot.parent_lt⟩

theorem layoutAll_ok {ids : List Nat} (hroot : t.Rooted) (h : t.PlacedOnce)
    (hids : ∀ id ∈ ids, id < t.size) :
    Lays t (ids.foldl layoutClass t) ∧ (ids.foldl layoutClass t).PlacedOnce ∧
      ∀ id ∈ ids, (ids.foldl layoutClass t).fieldCount? id ≠ none := by
  induction ids generalizing t with
  | nil => exact ⟨lays_refl, h, by simp⟩
  | cons id ids ih =>
    obtain ⟨hid, hids⟩ := List.forall_mem_cons.mp hids
    obtain ⟨hlays, hplaced, hcount⟩ := layoutClass_ok hroot h hid
    obtain ⟨hlays', hplaced', hcounts⟩ :=
      ih (lays_rooted hlays hroot) hplaced (by rwa [hlays.size])
    refine ⟨lays_trans hlays hlays', hplaced', List.forall_mem_cons.mpr ⟨?_, hcounts⟩⟩
    obtain ⟨n, hn⟩ := Option.ne_none_iff_exists'.mp hcount
    simp only [List.foldl_cons]
    rw [lays_fieldCount hlays' hn]
    simp

end LayoutLemmas

open LayoutLemmas

/-- `layout` gives every class its fields behind those of its parent and changes nothing else. -/
theorem layout_placed {t : ClassTable} (hroot : t.Rooted) (h : t.PlacedOnce) :
    Lays t t.layout ∧ t.layout.Rooted ∧ t.layout.AllPlaced := by
  obtain ⟨hlays, hplaced, hcounts⟩ :=
    layoutAll_ok hroot h fun id (hid : id ∈ List.range t.size) => List.mem_range.mp hid
  refine ⟨hlays, lays_rooted hlays hroot, fun id r hr => hplaced id r hr ?_⟩
  have hid : id < t.size := hlays.size ▸ lt_of_record hr
  have hcount := hcounts id (List.mem_range.mpr hid)
  intro hnone
  exact hcount (by simp [fieldCount?, layout] at hr ⊢; simp [hr, hnone])

/-! ## Fields of instances -/

section

variable {t : ClassTable} {id a b : Nat} {r q : ClassRecord} {f g : Field}

theorem fieldCount_of_placed {start : Nat} (hr : t.record? id = some r) (hp : t.Placed r start) :
    t.fieldCount id = start + r.fields.length := by
  simp [fieldCount, fieldCount?, hr, hp.count]

theorem fieldCount_of_parent {start p : Nat} (hp : t.Placed r start) (hparent : r.parent = some p) :
    t.fieldCount p = start := by
  have := hp.inherits
  simp only [inherited?, hparent] at this
  simp [fieldCount, this]

/-- An instance has room for the fields of its class and of all ancestors. -/
theorem offset_lt (hroot : t.Rooted) (hall : t.AllPlaced) (hid : id < t.size)
    (ha : a ∈ t.ancestors id) (hr : t.record? a = some r) (hf : f ∈ r.fields) :
    f.offset < t.fieldCount id := by
  have own : ∀ {id : Nat} {r start}, t.record? id = some r → t.Placed r start → f ∈ r.fields →
      f.offset < t.fieldCount id := by
    intro id r start hr hp hf
    obtain ⟨i, hi, hget⟩ := List.mem_iff_getElem.mp hf
    rw [fieldCount_of_placed hr hp, hp.offsets i f (by rw [List.getElem?_eq_getElem hi, hget])]
    omega
  induction id, hid using hroot.induct with
  | root id hid hn =>
    rw [ancestors_root hid hn, List.mem_singleton] at ha
    subst ha
    obtain ⟨start, hp⟩ := hall _ r hr
    exact own hr hp hf
  | link id p hid hplt hparent ih =>
    rw [ancestors_link hroot hparent, List.mem_cons] at ha
    rcases ha with rfl | ha
    · obtain ⟨start, hp⟩ := hall _ r hr
      exact own hr hp hf
    · obtain ⟨q, hq⟩ := exists_record hid
      obtain ⟨start, hp⟩ := hall _ q hq
      have hpar : q.parent = some p := by rw [← parent_of_record hq, hparent]
      have hle := ih ha
      rw [fieldCount_of_parent hp hpar] at hle
      rw [fieldCount_of_placed hq hp]
      omega

/-- In an instance no slot belongs to two fields. -/
theorem offset_injective (hroot : t.Rooted) (hall : t.AllPlaced) (hid : id < t.size)
    (ha : a ∈ t.ancestors id) (hb : b ∈ t.ancestors id) (hr : t.record? a = some r)
    (hq : t.record? b = some q) (hf : f ∈ r.fields) (hg : g ∈ q.fields)
    (heq : f.offset = g.offset) : a = b ∧ f = g := by
  have own : ∀ {r : ClassRecord} {start}, t.Placed r start → f ∈ r.fields → g ∈ r.fields → f = g := by
    intro r start hp hf hg
    obtain ⟨i, hi, hfi⟩ := List.mem_iff_getElem.mp hf
    obtain ⟨j, hj, hgj⟩ := List.mem_iff_getElem.mp hg
    have hfo := hp.offsets i f (by rw [List.getElem?_eq_getElem hi, hfi])
    have hgo := hp.offsets j g (by rw [List.getElem?_eq_getElem hj, hgj])
    obtain rfl : i = j := by omega
    rw [← hfi, ← hgj]
  -- An own field lies behind what the parent's instances have, an inherited one before it.
  have apart : ∀ {id p c : Nat} {r s : ClassRecord} {f g : Field}, t.parent? id = some p →
      p < t.size → t.record? id = some r → f ∈ r.fields → c ∈ t.ancestors p →
      t.record? c = some s → g ∈ s.fields → g.offset < f.offset := by
    intro id p c r s f g hparent hplt hr hf hc hs hg
    obtain ⟨start, hp⟩ := hall _ r hr
    have hpar : r.parent = some p := by rw [← parent_of_record hr, hparent]
    obtain ⟨i, hi, hfi⟩ := List.mem_iff_getElem.mp hf
    have hfo := hp.offsets i f (by rw [List.getElem?_eq_getElem hi, hfi])
    have hlt := offset_lt hroot hall hplt hc hs hg
    rw [fieldCount_of_parent hp hpar] at hlt
    omega
  induction id, hid using hroot.induct with
  | root id hid hn =>
    rw [ancestors_root hid hn, List.mem_singleton] at ha hb
    subst ha hb
    rw [hr] at hq
    cases hq
    obtain ⟨start, hp⟩ := hall _ r hr
    exact ⟨rfl, own hp hf hg⟩
  | link id p hid hplt hparent ih =>
    rw [ancestors_link hroot hparent, List.mem_cons] at ha hb
    rcases ha with rfl | ha
    · rcases hb with rfl | hb
      · rw [hr] at hq
        cases hq
        obtain ⟨start, hp⟩ := hall _ r hr
        exact ⟨rfl, own hp hf hg⟩
      · have := apart hparent hplt hr hf hb hq hg
        omega
    · rcases hb with rfl | hb
      · have := apart hparent hplt hq hg ha hr hf
        omega
      · exact ih ha hb

end

end ClassLang.ClassTable
