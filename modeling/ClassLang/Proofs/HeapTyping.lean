import ClassLang.Proofs.Safety

/-!
# Heap typing

Objects stay what they are: no step of the machine changes the construct or the number of fields of an
object, whatever the image is (`Machine.step_extends`). In runs of checked programs they are moreover what
their class says: an object has the fields of its construct, and a field holds null or a value of the
class that it is declared with (`Image.run_heap_typed`).
-/

namespace ClassLang

/-- Objects stay at their addresses and keep their construct and their number of fields. -/
def Heap.Extends (h h' : Heap) : Prop :=
  ∀ (address : Nat) obj, h.get? address = some obj → ∃ obj', h'.get? address = some obj' ∧
    obj'.construct = obj.construct ∧ obj'.fields.size = obj.fields.size

/-- The heap behind a step extends the heap in front of it; halting leaves the heap as it is. -/
def Outcome.Extends (h : Heap) : Outcome → Prop
  | .next m => h.Extends m.heap
  | .halt _ h' _ => h' = h
  | .fault _ _ => True

/-- The heap where a run is after its steps. A fault leaves none. -/
def RunResult.heap? : RunResult → Option Heap
  | .unfinished m => some m.heap
  | .halted _ h _ => some h
  | .faulted _ _ => none

theorem Object.setField_keeps (o : Object) {o' : Object} {offset : Nat} {v : Value}
    (h : o.setField offset v = .ok o') :
    o'.construct = o.construct ∧ o'.fields.size = o.fields.size := by
  unfold Object.setField at h
  split at h
  · cases h
    exact ⟨rfl, by simp⟩
  · cases h

namespace Heap.Extends

variable {h h' h'' : Heap}

theorem refl : h.Extends h := fun _ obj hobj => ⟨obj, hobj, rfl, rfl⟩

theorem trans (hh : h.Extends h') (hh' : h'.Extends h'') : h.Extends h'' := by
  intro address obj hobj
  obtain ⟨obj', hobj', hcon, hsize⟩ := hh address obj hobj
  obtain ⟨obj'', hobj'', hcon', hsize'⟩ := hh' address obj' hobj'
  exact ⟨obj'', hobj'', hcon'.trans hcon, hsize'.trans hsize⟩

theorem allocate (construct count : Nat) : h.Extends (h.allocate construct count).2 := by
  intro address obj hobj
  have hlt : address < h.objects.size := (Array.getElem?_eq_some_iff.mp hobj).1
  refine ⟨obj, ?_, rfl, rfl⟩
  simpa [Heap.get?, Heap.allocate, Array.getElem?_push_lt hlt, Array.getElem?_eq_getElem hlt]
    using hobj

theorem setField {target v : Value} {offset : Nat} (hset : h.setField target offset v = .ok h') :
    h.Extends h' := by
  unfold Heap.setField at hset
  split at hset
  · next a =>
    split at hset
    · next o ho =>
      simp only [bind_eq_ok, pure_eq_ok] at hset
      obtain ⟨o', ho', rfl⟩ := hset
      obtain ⟨hcon, hsize⟩ := o.setField_keeps ho'
      have hlt : a < h.objects.size := (Array.getElem?_eq_some_iff.mp ho).1
      intro address obj hobj
      by_cases ha : a = address
      · subst ha
        rw [ho] at hobj
        cases hobj
        exact ⟨o', by simp [Heap.get?, hlt], hcon, hsize⟩
      · refine ⟨obj, ?_, rfl, rfl⟩
        simpa [Heap.get?, Array.getElem?_setIfInBounds, ha] using hobj
    · cases hset
  · cases hset
  · cases hset

end Heap.Extends

namespace Machine

variable {image : Image} {m : Machine}

theorem withFrame_extends (r : Except Fault Frame) : (m.withFrame r).Extends m.heap := by
  cases r with
  | ok f => exact .refl
  | error e => trivial

theorem call_extends {h : Heap} (body : Body) (args : List Value) (hm : h.Extends m.heap) :
    (m.call image body args).Extends h := by
  cases body with
  | native native n =>
    simp only [call]
    split
    · exact hm
    · trivial
  | compiled chunk => exact hm

theorem callTarget_extends (r : Except Fault Target) :
    (m.callTarget image r).Extends m.heap := by
  cases r with
  | ok target =>
    obtain ⟨body, args, f⟩ := target
    exact call_extends body args .refl
  | error e => trivial

theorem new_extends (index : Nat) : (m.new image index).Extends m.heap := by
  unfold new
  split
  · trivial
  · next c _ =>
    have hk : m.heap.Extends (m.heap.allocate index c.fieldCount).2 := .allocate _ _
    dsimp only
    split
    · exact hk
    · split
      · exact call_extends _ _ hk
      · trivial

theorem setField_extends (offset : Nat) :
    (m.execute image (.setField offset)).Extends m.heap := by
  simp only [execute]
  split
  · next f h hset =>
    simp only [setField, bind_eq_ok, pure_eq_ok, Prod.exists, Prod.mk.injEq] at hset
    obtain ⟨v, f₁, _, target, f₂, _, h', hh, rfl, rfl⟩ := hset
    exact .setField hh
  · trivial

theorem leave_extends : m.leave.Extends m.heap := by
  unfold leave
  split
  · trivial
  · exact rfl
  · exact .refl

/-- No instruction changes what an object is. -/
theorem execute_extends (i : Instr) : (m.execute image i).Extends m.heap := by
  cases i with
  | new index => exact new_extends index
  | setField offset => exact setField_extends offset
  | «return» => exact leave_extends
  | invoke c k => exact callTarget_extends _
  | callVirtual c k => exact callTarget_extends _
  | virtualOrAny c k => exact callTarget_extends _
  | pushZero => exact .refl
  | pushOne => exact .refl
  | pushTrue => exact .refl
  | pushFalse => exact .refl
  | pushNull => exact .refl
  | jump target => exact .refl
  | _ => exact withFrame_extends _

theorem step_extends : (m.step image).Extends m.heap := by
  unfold step
  split
  · exact execute_extends _
  · trivial

/-- A run keeps all objects of the machine that it starts from. -/
theorem run_extends {bound : Nat} {h : Heap} (hrun : (m.run image bound).heap? = some h) :
    m.heap.Extends h := by
  induction bound generalizing m with
  | zero =>
    cases hrun
    exact .refl
  | succ bound ih =>
    have hstep : (m.step image).Extends m.heap := step_extends
    rw [run] at hrun
    split at hrun
    · next next hnext =>
      rw [hnext] at hstep
      exact hstep.trans (ih hrun)
    · next hhalt =>
      rw [hhalt] at hstep
      cases hrun
      obtain rfl := hstep
      exact .refl
    · cases hrun

/-- A longer run goes on with the machine of a shorter one. -/
theorem run_add {bound : Nat} {m' : Machine} (hrun : m.run image bound = .unfinished m') (l : Nat) :
    m.run image (bound + l) = m'.run image l := by
  induction bound generalizing m with
  | zero =>
    cases hrun
    rw [Nat.zero_add]
  | succ bound ih =>
    rw [Nat.succ_add, run]
    rw [run] at hrun
    split at hrun
    · exact ih hrun
    · cases hrun
    · cases hrun

/-- The heap of a run is that of a machine on the way: when the run has halted, that of the last one. -/
theorem run_heap {bound : Nat} {h : Heap} (hrun : (m.run image bound).heap? = some h) :
    ∃ k ≤ bound, ∃ m', m.run image k = .unfinished m' ∧ m'.heap = h := by
  induction bound generalizing m with
  | zero =>
    cases hrun
    exact ⟨0, Nat.le_refl 0, m, rfl, rfl⟩
  | succ bound ih =>
    have hstep : (m.step image).Extends m.heap := step_extends
    rw [run] at hrun
    split at hrun
    · next next hnext =>
      obtain ⟨k, hk, m', hm', hh⟩ := ih hrun
      exact ⟨k + 1, Nat.succ_le_succ hk, m', by simp only [run, hnext, hm'], hh⟩
    · next hhalt =>
      rw [hhalt] at hstep
      cases hrun
      exact ⟨0, Nat.zero_le _, m, rfl, hstep.symm⟩
    · cases hrun

end Machine

/-! ## Checked programs -/

/-- A value is null or of the construct of a class, or of one that inherits from it. The unit type has no
construct, and only null is of it. -/
def Heap.Fits (image : Image) (h : Heap) (v : Value) (id : Nat) : Prop :=
  v = .null ∨ ∃ own construct, h.construct? v = some own ∧ TypeId.construct? id = some construct ∧
    image.isInstance own construct = true

theorem HeapRel.fits {a : Analysis} {image : Image} (W : WellTyped a) (A : Assembled a image)
    {objects : List Instance} {h : Heap} {v : Value} {τ : Ty} {id : Nat}
    (H : HeapRel a.classes objects h) (hv : v.HasType a.classes objects τ)
    (hid : τ.class? = some id) : h.Fits image v id := by
  by_cases hu : id = TypeId.unit
  · subst hu
    have hplain : v.HasType a.classes objects .unit := by
      rcases hv with rfl | ⟨own, c, hown, hc, hsub⟩
      · exact .null
      · rw [hid] at hc
        exact .of_class hown hc hsub
    exact .inl (H.unit_null W hplain)
  · rcases hv with rfl | ⟨own, c, hown, hc, hsub⟩
    · exact .inl rfl
    · rw [hid] at hc
      cases hc
      obtain ⟨hlt, hne⟩ := H.classId_lt W hown
      refine .inr ⟨TypeId.index own, TypeId.index id, ?_, TypeId.construct_of_ne hu, ?_⟩
      · rw [H.construct_eq, hown]
        rfl
      · rw [isInstance_index W A hlt hne hu, hsub]

/-- Heap typing holds in every state of every run: an object has the fields of its construct and keeps
the construct, and each field that its class or an ancestor declares holds what the declared class
allows. -/
theorem Image.run_heap_typed {source : String} {a : Analysis} {image : Image}
    (ha : Analysis.ofSource source = .ok a) (himage : Image.ofSource source = .ok image)
    {bound : Nat} {console : Console} {h : Heap} (hrun : (image.run bound console).heap? = some h)
    {address : Nat} {obj : Object} (hobj : h.get? address = some obj) :
    (∃ c, image.construct? obj.construct = some c ∧ obj.fields.size = c.fieldCount) ∧
    (∀ l h', (image.run (bound + l) console).heap? = some h' →
      ∃ obj', h'.get? address = some obj' ∧ obj'.construct = obj.construct) ∧
    ∃ id < a.classes.size, TypeId.construct? id = some obj.construct ∧
      ∀ owner ∈ a.classes.ancestors id, ∀ r, a.classes.record? owner = some r → ∀ f ∈ r.fields,
        ∀ c, f.type.class? = some c →
          ∃ v, obj.fields[f.offset]? = some v ∧ h.Fits image v c := by
  obtain ⟨a', ha', W, A⟩ := Image.ofSource_ok himage
  obtain rfl := Except.ok.inj (ha.symm.trans ha')
  obtain ⟨k, hk, m, hm, rfl⟩ := Machine.run_heap hrun
  obtain ⟨objects, H⟩ : HeapTyped a m := by
    rcases run_cases W A k console with ⟨m', hrun', hm'⟩ | ⟨e, hend, _⟩
    · obtain rfl := RunResult.unfinished.inj (hm.symm.trans hrun')
      exact hm'
    · rw [Image.run, hm] at hend
      cases hend
  obtain ⟨o, ho⟩ : ∃ o, objects[address]? = some o := by
    cases ho : objects[address]? with
    | some o => exact ⟨o, rfl⟩
    | none =>
      rw [H.get_none ho] at hobj
      cases hobj
  obtain ⟨obj', hobj', hrel⟩ := H.each address o ho
  rw [hobj] at hobj'
  cases hobj'
  have hlt := W.inheritable_lt hrel.inheritable
  obtain ⟨c, hc, _, hcount, _⟩ := construct_of_class W A hlt hrel.inheritable.ne_unit
  refine ⟨⟨c, hrel.construct ▸ hc, hrel.size.trans hcount.symm⟩, fun l h' hrun' => ?_,
    o.classId, hlt, ?_, fun owner howner r hr f hf id hid => ?_⟩
  · have hsplit : bound + l = k + (bound - k + l) := by omega
    rw [Image.run, hsplit, Machine.run_add hm] at hrun'
    obtain ⟨obj', hobj', hcon, _⟩ := Machine.run_extends hrun' address obj hobj
    exact ⟨obj', hobj', hcon⟩
  · rw [hrel.construct]
    exact TypeId.construct_of_ne hrel.inheritable.ne_unit
  · obtain ⟨hget, htyped⟩ := hrel.fields owner howner r hr f hf
    exact ⟨_, hget, H.fits W A htyped hid⟩

/-- A program whose one object holds itself in its one field. -/
def linked : String :=
  "class Main\n\x7b\n public next: Main? = this\n\x7d\n"

/-- The object is there after the run, and all of this holds for it. -/
theorem linked_run_heap_typed : ∃ a image h obj, Analysis.ofSource linked = .ok a ∧
    Image.ofSource linked = .ok image ∧ (image.run 100 (.ofText "")).heap? = some h ∧
    h.get? 0 = some obj ∧ obj.construct = 5 ∧
    (∃ c, image.construct? obj.construct = some c ∧ obj.fields.size = c.fieldCount) ∧
    (∀ l h', (image.run (100 + l) (.ofText "")).heap? = some h' →
      ∃ obj', h'.get? 0 = some obj' ∧ obj'.construct = obj.construct) ∧
    ∃ id < a.classes.size, TypeId.construct? id = some obj.construct ∧
      ∀ owner ∈ a.classes.ancestors id, ∀ r, a.classes.record? owner = some r → ∀ f ∈ r.fields,
        ∀ c, f.type.class? = some c →
          ∃ v, obj.fields[f.offset]? = some v ∧ h.Fits image v c := by
  have hrun : ((Image.ofSource linked).toOption.bind fun image =>
      (image.run 100 (.ofText "")).heap?.bind fun h => (h.get? 0).map Object.construct) = some 5 := by
    decide +kernel
  simp only [Option.bind_eq_some_iff, Option.map_eq_some_iff] at hrun
  obtain ⟨image, himage, h, hh, obj, hobj, hcon⟩ := hrun
  have hok := toOption_eq_some.mp himage
  obtain ⟨a, ha, _, _⟩ := Image.ofSource_ok hok
  exact ⟨a, image, h, obj, ha, hok, hh, hobj, hcon, Image.run_heap_typed ha hok hh hobj⟩

end ClassLang
