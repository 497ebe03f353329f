import ClassLang.Image.Validate
import ClassLang.Machine.Run
import ClassLang.Proofs.Lookups
import ClassLang.Proofs.Success

/-!
# Runs of valid images

An image from outside need not come from any program. That it is valid still makes the indices in its code
safe: whatever the image does, each frame of a run belongs to a chunk of the image that has been checked
and has a slot for every local of it (`Machine.run_secure`), so of the faults that code can be to blame
for only four remain (`Image.run_of_validate`).
-/

namespace ClassLang

/-! ## What validity says -/

/-- A chunk of an image: the one to start with, or the body of a member. -/
def Image.HasChunk (image : Image) (chunk : Chunk) : Prop :=
  chunk = image.entry ∨ ∃ (index : Nat) (c : Construct) (member : Nat),
    image.construct? index = some c ∧ c.bodies.find? member = some (.compiled chunk)

/-- Whatever the instruction refers to is there. -/
structure Image.Admits (image : Image) (chunk : Chunk) (i : Instr) : Prop where
  target : ∀ t, i.jumpTarget? = some t → t ≤ chunk.code.size
  construct : ∀ c, i.construct? = some c → ∃ con, image.construct? c = some con
  constant : ∀ c, i.constant? = some c → ∃ v, image.constants.get? c = some v
  slot : ∀ s, i.slot? = some s → s < chunk.locals

namespace ValidationLemmas

theorem none_of_or {α : Type} {x y : Option α} (h : x.or y = none) : x = none ∧ y = none := by
  cases x with
  | none => exact ⟨rfl, h⟩
  | some v => cases h

theorem not_of_filter {p : Nat → Bool} {x : Option Nat} {d : Nat → ImageDefect}
    (h : (x.filter p).map d = none) : ∀ n, x = some n → ¬ p n = true := by
  rintro n rfl
  simpa using h

theorem constructDefect_none {image : Image} {cs : List Construct} {i : Nat}
    (h : image.constructsDefect? i cs = none) :
    ∀ c ∈ cs, c.bodies.entries.findSome? image.entryDefect? = none := by
  induction cs generalizing i with
  | nil => simp
  | cons c cs ih =>
    obtain ⟨hc, hcs⟩ := none_of_or h
    exact List.forall_mem_cons.mpr ⟨(none_of_or hc).2, ih hcs⟩

end ValidationLemmas

open ValidationLemmas

theorem Image.admits_of_instrDefect {image : Image} {chunk : Chunk} {i : Instr}
    (h : image.instrDefect? chunk i = none) : image.Admits chunk i := by
  obtain ⟨htarget, h⟩ := none_of_or h
  obtain ⟨hconstruct, h⟩ := none_of_or h
  obtain ⟨hconstant, h⟩ := none_of_or h
  obtain ⟨hslot, _⟩ := none_of_or h
  refine ⟨fun t ht => ?_, fun c hc => ?_, fun c hc => ?_, fun s hs => ?_⟩
  · simpa using not_of_filter htarget t ht
  · simpa [Option.isSome_iff_exists, Option.ne_none_iff_exists'] using not_of_filter hconstruct c hc
  · simpa [Option.isSome_iff_exists, Option.ne_none_iff_exists'] using not_of_filter hconstant c hc
  · simpa using not_of_filter hslot s hs

/-- A valid image has the construct to start with, and no defect in its constructs or its entry chunk. -/
theorem Image.sound_of_validate {image : Image} (h : image.validate = .ok ()) :
    (image.construct? image.main).isSome ∧
      image.constructsDefect? 0 image.constructs.toList = none ∧
      image.chunkDefect? image.entry = none := by
  have hproblem : image.problem? = none := by
    unfold validate at h
    split at h
    · assumption
    · cases h
  unfold problem? at hproblem
  split at hproblem
  · cases hproblem
  · split at hproblem
    · cases hproblem
    · split at hproblem
      · cases hproblem
      · next hmain =>
        exact ⟨Option.isSome_iff_ne_none.mpr fun hnone => hmain (by rw [hnone]; rfl),
          none_of_or (Option.map_eq_none_iff.mp hproblem)⟩

/-- Every chunk of a valid image has been checked. -/
theorem Image.admits_of_validate {image : Image} (h : image.validate = .ok ()) {chunk : Chunk}
    (hchunk : image.HasChunk chunk) {i : Instr} (hi : i ∈ chunk.code) : image.Admits chunk i := by
  obtain ⟨_, hconstructs, hentry⟩ := Image.sound_of_validate h
  have hnone : image.chunkDefect? chunk = none := by
    rcases hchunk with rfl | ⟨index, c, member, hc, hbody⟩
    · exact hentry
    · have hentries := constructDefect_none hconstructs c
        (Array.mem_toList_iff.mpr (Array.mem_of_getElem? hc))
      have hdefect := List.findSome?_eq_none_iff.mp hentries (member, .compiled chunk)
        (mem_of_lookup hbody)
      unfold entryDefect? at hdefect
      split at hdefect
      · cases hdefect
      · exact hdefect
  unfold chunkDefect? at hnone
  split at hnone
  · cases hnone
  · exact admits_of_instrDefect
      (List.findSome?_eq_none_iff.mp hnone i (Array.mem_toList_iff.mpr hi))

theorem Image.hasChunk_of_resolve {image : Image} {index member owner : Nat} {chunk : Chunk}
    (h : image.resolve? index member = some (owner, .compiled chunk)) : image.HasChunk chunk := by
  obtain ⟨k, _, hk⟩ := List.exists_of_findSome?_eq_some h
  simp only [Option.map_eq_some_iff, Option.bind_eq_some_iff, Prod.mk.injEq] at hk
  obtain ⟨body, ⟨c, hc, hbody⟩, _, rfl⟩ := hk
  exact .inr ⟨k, c, member, hc, hbody⟩

/-! ## What can still go wrong -/

/-- A fault of the code of a valid image: the code of a chunk is at its end, an object has too few fields,
a call finds a body with another number of arguments than the call is made for, or a native gets another
number of arguments than it takes. -/
def CodeFault.Residual (image : Image) : CodeFault → Prop
  | .pastEnd ip => ∃ chunk, image.HasChunk chunk ∧ ip = chunk.code.size
  | .fieldOffset offset count => count ≤ offset
  | .arity _ actual _ expected _ => actual ≠ expected
  | .nativeArguments native given => given ≠ native.arity
  | .localSlot _ | .constant _ | .construct _ => False

/-- A fault that a valid image can lead to. Faults that are not about code are no concern of validity. -/
def Fault.Residual (image : Image) : Fault → Prop
  | .code f => f.Residual image
  | _ => True

/-- A result with a property, or a fault that a valid image can lead to. -/
def Secures (image : Image) {α : Type} (P : α → Prop) : Except Fault α → Prop
  | .ok x => P x
  | .error e => e.Residual image

namespace Secures

variable {image : Image} {α β : Type} {P : α → Prop} {Q : β → Prop}

theorem bind {x : Except Fault α} {f : α → Except Fault β} (hx : Secures image P x)
    (hf : ∀ a, P a → Secures image Q (f a)) : Secures image Q (x >>= f) := by
  cases x with
  | ok a => exact hf a hx
  | error e => exact hx

theorem map {x : Except Fault α} {f : α → β} (hx : Secures image P x) (hf : ∀ a, P a → Q (f a)) :
    Secures image Q (x.map f) := by
  cases x with
  | ok a => exact hf a hx
  | error e => exact hx

end Secures

/-! ## Operands, slots and fields -/

/-- A frame of a chunk: it is at an instruction or behind the last one, and has a slot for each local. -/
structure Frame.Runs (chunk : Chunk) (f : Frame) : Prop where
  code : f.code = chunk.code
  ip : f.ip ≤ chunk.code.size
  locals : chunk.locals ≤ f.locals.size

/-- A frame of a chunk that the image has. -/
def Frame.Secure (image : Image) (f : Frame) : Prop := ∃ chunk, image.HasChunk chunk ∧ f.Runs chunk

section

variable {image : Image} {chunk : Chunk} {f : Frame}

theorem Frame.start_runs (args : List Value) : (Frame.start chunk args).Runs chunk where
  code := rfl
  ip := Nat.zero_le _
  locals := by
    simp only [Frame.start, List.size_toArray, List.length_append, List.length_replicate]
    omega

namespace Frame.Runs

theorem secures_asNumber (v : Value) : Secures image (fun _ => True) v.asNumber := by
  cases v <;> trivial

theorem secures_asBoolean (v : Value) : Secures image (fun _ => True) v.asBoolean := by
  cases v <;> trivial

theorem secures_asString (v : Value) : Secures image (fun _ => True) v.asString := by
  cases v <;> trivial

variable (hf : f.Runs chunk)

include hf

theorem push (v : Value) : (f.push v).Runs chunk := ⟨hf.code, hf.ip, hf.locals⟩

theorem pop : Secures image (fun r => r.2.Runs chunk) f.pop := by
  unfold Frame.pop
  split
  · exact ⟨hf.code, hf.ip, hf.locals⟩
  · trivial

omit hf in
theorem peekAt (n : Nat) : Secures image (fun _ => True) (f.peekAt n) := by
  unfold Frame.peekAt
  split <;> trivial

theorem popMany (n : Nat) : Secures image (fun r => r.2.Runs chunk) (f.popMany n) := by
  unfold Frame.popMany
  split
  · exact ⟨hf.code, hf.ip, hf.locals⟩
  · trivial

theorem popNumber : Secures image (fun r => r.2.Runs chunk) f.popNumber :=
  hf.pop.bind fun r hr => (secures_asNumber r.1).bind fun _ _ => hr

theorem popBoolean : Secures image (fun r => r.2.Runs chunk) f.popBoolean :=
  hf.pop.bind fun r hr => (secures_asBoolean r.1).bind fun _ _ => hr

theorem onNumbers (g : Float → Float → Value) :
    Secures image (·.Runs chunk) (f.onNumbers g) :=
  hf.popNumber.bind fun _ hy => hy.popNumber.bind fun _ hx => hx.push _

theorem onBooleans (g : Bool → Bool → Bool) : Secures image (·.Runs chunk) (f.onBooleans g) :=
  hf.popBoolean.bind fun _ hb => hb.popBoolean.bind fun _ ha => ha.push _

theorem onValues (g : Value → Value → Bool) : Secures image (·.Runs chunk) (f.onValues g) :=
  hf.pop.bind fun _ hb => hb.pop.bind fun _ ha => ha.push _

theorem binary (op : BinaryOp) : Secures image (·.Runs chunk) (f.binary op) := by
  cases op <;> simp only [Frame.binary]
  case equal | notEqual => exact hf.onValues _
  case and | or => exact hf.onBooleans _
  all_goals exact hf.onNumbers _

theorem unary (op : UnaryOp) : Secures image (·.Runs chunk) (f.unary op) := by
  cases op with
  | negate => exact hf.popNumber.bind fun _ hx => hx.push _
  | not => exact hf.popBoolean.bind fun _ hb => hb.push _

/-- A slot below the number of locals is there. -/
theorem load {slot : Nat} (hslot : slot < chunk.locals) :
    Secures image (fun _ => True) (f.load slot) := by
  have hlt : slot < f.locals.size := Nat.lt_of_lt_of_le hslot hf.locals
  simp only [Frame.load, Array.getElem?_eq_getElem hlt]
  trivial

theorem store {slot : Nat} (hslot : slot < chunk.locals) (v : Value) :
    Secures image (·.Runs chunk) (f.store slot v) := by
  have hlt : slot < f.locals.size := Nat.lt_of_lt_of_le hslot hf.locals
  simp only [Frame.store, hlt, dif_pos]
  exact ⟨hf.code, hf.ip, by simpa using hf.locals⟩

/-- What is fetched is an instruction of the chunk. -/
theorem fetch (hchunk : image.HasChunk chunk) :
    Secures image (fun r => r.1 ∈ chunk.code ∧ r.2.Runs chunk) f.fetch := by
  unfold Frame.fetch
  split
  · next i hi =>
    rw [hf.code] at hi
    exact ⟨Array.mem_of_getElem? hi, hf.code, (Array.getElem?_eq_some_iff.mp hi).1, hf.locals⟩
  · next hi =>
    rw [hf.code] at hi
    exact ⟨chunk, hchunk, Nat.le_antisymm hf.ip (Array.getElem?_eq_none_iff.mp hi)⟩

end Frame.Runs

theorem Object.secures_field (o : Object) (offset : Nat) :
    Secures image (fun _ => True) (o.field offset) := by
  unfold Object.field
  split
  · trivial
  · next h => exact Array.getElem?_eq_none_iff.mp h

theorem Object.secures_setField (o : Object) (offset : Nat) (v : Value) :
    Secures image (fun _ => True) (o.setField offset v) := by
  unfold Object.setField
  split
  · trivial
  · next h => exact Nat.le_of_not_lt h

theorem Heap.secures_field (h : Heap) (v : Value) (offset : Nat) :
    Secures image (fun _ => True) (h.field v offset) := by
  unfold Heap.field
  split
  · exact Object.secures_field _ _
  · split <;> trivial
  · trivial
  · trivial

theorem Heap.secures_setField (h : Heap) (target : Value) (offset : Nat) (v : Value) :
    Secures image (fun _ => True) (h.setField target offset v) := by
  unfold Heap.setField
  split
  · split
    · exact (Object.secures_setField _ _ _).bind fun _ _ => trivial
    · exact Nat.zero_le offset
  · trivial
  · trivial

end

/-! ## Natives -/

namespace Native

variable {image : Image}

/-- A native that gets another number of arguments than it takes looks at none of them. -/
theorem apply_of_ne (text : Value → String) (console : Console) (native : Native) (args : List Value)
    (h : args.length ≠ native.arity) :
    native.apply text console args =
      (.error (.code (.nativeArguments native args.length)), console) := by
  match args with
  | [] => cases native <;> rfl
  | [_] => cases native <;> first | rfl | exact absurd rfl h
  | [_, _] => cases native <;> first | rfl | exact absurd rfl h
  | _ :: _ :: _ :: _ => cases native <;> rfl

theorem secures_ofNumbers (a b : Value) (f : Float → Float → Value) :
    Secures image (fun _ => True) (a.ofNumbers b f) :=
  (Frame.Runs.secures_asNumber a).bind fun _ _ =>
    (Frame.Runs.secures_asNumber b).bind fun _ _ => trivial

theorem secures_readLine (console : Console) : Secures image (fun _ => True) console.readLine.1 := by
  unfold Console.readLine
  split <;> trivial

/-- A native with all its arguments faults for want of a kind or of a text at most. -/
theorem secures_apply (text : Value → String) (console : Console) (native : Native)
    (args : List Value) : Secures image (fun _ => True) (native.apply text console args).1 := by
  by_cases h : args.length = native.arity
  · cases native
    case anyNew | anyInit =>
      obtain ⟨a, rfl⟩ := List.length_eq_one_iff.mp h
      trivial
    case numberNegate =>
      obtain ⟨a, rfl⟩ := List.length_eq_one_iff.mp h
      exact (Frame.Runs.secures_asNumber a).bind fun _ _ => trivial
    case booleanNot =>
      obtain ⟨a, rfl⟩ := List.length_eq_one_iff.mp h
      exact (Frame.Runs.secures_asBoolean a).bind fun _ _ => trivial
    case consoleIn =>
      obtain ⟨a, rfl⟩ := List.length_eq_one_iff.mp h
      exact (secures_readLine console).map fun _ _ => trivial
    all_goals obtain ⟨a, b, rfl⟩ := List.length_eq_two.mp h
    case anyEqual | anyNotEqual | consoleOut => trivial
    case stringConcat => exact (Frame.Runs.secures_asString a).bind fun _ _ => trivial
    case booleanAnd | booleanOr =>
      refine (Frame.Runs.secures_asBoolean a).bind fun x _ => ?_
      cases x
      · first | trivial | exact (Frame.Runs.secures_asBoolean b).bind fun _ _ => trivial
      · first | trivial | exact (Frame.Runs.secures_asBoolean b).bind fun _ _ => trivial
    all_goals exact secures_ofNumbers a b _
  · rw [apply_of_ne text console native args h]
    exact h

end Native

/-! ## Steps -/

/-- All frames of a machine belong to chunks of the image. -/
structure Machine.Secure (image : Image) (m : Machine) : Prop where
  frame : m.frame.Secure image
  callers : ∀ f ∈ m.callers, f.Secure image

/-- What a step of such a machine leads to. -/
def Outcome.Secure (image : Image) : Outcome → Prop
  | .next m => m.Secure image
  | .halt _ _ _ => True
  | .fault cause _ => cause.Residual image

/-- If a body is a chunk, then one of the image. -/
def Body.Known (image : Image) (body : Body) : Prop :=
  ∀ chunk, body = .compiled chunk → image.HasChunk chunk

namespace Machine

variable {image : Image} {chunk : Chunk} {m : Machine}

theorem start_secure (console : Console) : (start image console).Secure image :=
  ⟨⟨image.entry, .inl rfl, Frame.start_runs []⟩, by simp [start]⟩

theorem resolve_known (c member : Nat) :
    Secures image (fun r => r.2.Known image) (resolve image c member) := by
  unfold resolve
  split
  · next found hfound =>
    obtain ⟨owner, body⟩ := found
    rintro chunk rfl
    exact Image.hasChunk_of_resolve hfound
  · trivial

theorem call_secure (hm : m.Secure image) {body : Body} (hbody : body.Known image)
    (args : List Value) : (m.call image body args).Secure image := by
  cases body with
  | native native n =>
    obtain ⟨chunk, hchunk, hf⟩ := hm.frame
    have hsecures : Secures image (fun _ => True) (native.call image m.heap m.console args).1 :=
      Native.secures_apply _ _ native args
    simp only [call]
    split
    · exact ⟨⟨chunk, hchunk, hf.push _⟩, hm.callers⟩
    · next heq =>
      rw [heq] at hsecures
      exact hsecures
  | compiled chunk =>
    exact ⟨⟨chunk, hbody chunk rfl, Frame.start_runs args⟩,
      List.forall_mem_cons.mpr ⟨hm.frame, hm.callers⟩⟩

section

variable (hchunk : image.HasChunk chunk) (hf : m.frame.Runs chunk)
  (hcallers : ∀ f ∈ m.callers, f.Secure image)

include hchunk hcallers

omit hf in
theorem withFrame_secure {r : Except Fault Frame} (h : Secures image (·.Runs chunk) r) :
    (m.withFrame r).Secure image := by
  cases r with
  | ok f => exact ⟨⟨chunk, hchunk, h⟩, hcallers⟩
  | error e => exact h

omit hf in
theorem callTarget_secure {r : Except Fault Target}
    (h : Secures image (fun t => t.1.Known image ∧ t.2.2.Runs chunk) r) :
    (m.callTarget image r).Secure image := by
  cases r with
  | ok target =>
    obtain ⟨body, args, f⟩ := target
    exact call_secure (m := { m with frame := f }) ⟨⟨chunk, hchunk, h.2⟩, hcallers⟩ h.1 args
  | error e => exact h

omit hchunk hcallers in
theorem staticTarget_secures {f : Frame} (hf : f.Runs chunk) (c member : Nat) :
    Secures image (fun t => t.1.Known image ∧ t.2.2.Runs chunk)
      (staticTarget image f c member) :=
  (resolve_known c member).bind fun _ hbody => (hf.popMany _).bind fun _ hr => ⟨hbody, hr⟩

omit hchunk hcallers in
/-- The body that is found for the receiver may be one for another number of arguments. -/
theorem virtualTarget_secures {f : Frame} (hf : f.Runs chunk) (heap : Heap) (c member : Nat)
    (onNull : Option Nat) :
    Secures image (fun t => t.1.Known image ∧ t.2.2.Runs chunk)
      (virtualTarget image heap f c member onNull) := by
  refine (resolve_known c member).bind fun declared _ => ?_
  refine (Frame.Runs.peekAt _).bind fun receiver _ => ?_
  split
  · trivial
  · refine (resolve_known _ member).bind fun found hbody => ?_
    dsimp only
    -- The arguments are counted before they are taken.
    split
    · next hne => exact hne
    · exact (hf.popMany _).bind fun _ hr => ⟨hbody, hr⟩

include hf

theorem new_secure {index : Nat} (hindex : ∃ c, image.construct? index = some c) :
    (m.new image index).Secure image := by
  obtain ⟨c, hc⟩ := hindex
  simp only [new, hc]
  split
  · exact ⟨⟨chunk, hchunk, hf.push _⟩, hcallers⟩
  · next member _ =>
    have hknown : Secures image (fun r => r.2.Known image) (resolve image index member) :=
      resolve_known index member
    split
    · next heq =>
      rw [heq] at hknown
      exact call_secure (m := { m with heap := (m.heap.allocate index c.fieldCount).2 })
        ⟨⟨chunk, hchunk, hf⟩, hcallers⟩ hknown _
    · next heq =>
      rw [heq] at hknown
      exact hknown

omit hchunk hcallers in
theorem getField_secures (offset : Nat) : Secures image (·.Runs chunk) (m.getField offset) :=
  hf.pop.bind fun _ hr => (Heap.secures_field _ _ _).bind fun _ _ => hr.push _

omit hchunk hcallers in
theorem setField_secures (offset : Nat) :
    Secures image (·.1.Runs chunk) (m.setField offset) :=
  hf.pop.bind fun _ hr => hr.pop.bind fun _ hr' =>
    (Heap.secures_setField _ _ _ _).bind fun _ _ => hr'.push _

omit hchunk hcallers in
theorem castTop_secures (c : Nat) (nullable : Bool) :
    Secures image (·.Runs chunk) (m.castTop image c nullable) := by
  refine (Frame.Runs.peekAt 0).bind fun v _ => ?_
  split
  · exact hf
  · trivial

omit hchunk in
theorem leave_secure : m.leave.Secure image := by
  have hpop : Secures image (fun r => r.2.Runs chunk) m.frame.pop := hf.pop
  unfold leave
  split
  · next heq =>
    rw [heq] at hpop
    exact hpop
  · trivial
  · next caller callers _ heq =>
    rw [heq] at hcallers
    obtain ⟨⟨chunk', hchunk', hf'⟩, hrest⟩ := List.forall_mem_cons.mp hcallers
    exact ⟨⟨chunk', hchunk', hf'.push _⟩, hrest⟩

/-- An instruction whose references are there leads to a machine whose frames belong to chunks of the
image, or to a fault that validity leaves. -/
theorem execute_secure {i : Instr} (hi : image.Admits chunk i) : (m.execute image i).Secure image := by
  cases i with
  | pushConst index =>
    obtain ⟨v, hv⟩ := hi.constant index rfl
    refine withFrame_secure hchunk hcallers ?_
    simp only [pushConstant, Image.constantValue?, hv, Option.map_some]
    exact hf.push _
  | pushZero | pushOne | pushTrue | pushFalse | pushNull =>
    exact withFrame_secure (r := .ok _) hchunk hcallers (hf.push _)
  | pop => exact withFrame_secure hchunk hcallers (hf.pop.map fun _ hr => hr)
  | dup => exact withFrame_secure hchunk hcallers ((Frame.Runs.peekAt 0).map fun _ _ => hf.push _)
  | load slot =>
    exact withFrame_secure hchunk hcallers ((hf.load (hi.slot slot rfl)).map fun _ _ => hf.push _)
  | store slot =>
    exact withFrame_secure hchunk hcallers (hf.pop.bind fun _ hr => hr.store (hi.slot slot rfl) _)
  | new index => exact new_secure hchunk hf hcallers (hi.construct index rfl)
  | getField offset => exact withFrame_secure hchunk hcallers (getField_secures hf offset)
  | setField offset =>
    have hset : Secures image (·.1.Runs chunk) (m.setField offset) := setField_secures hf offset
    simp only [execute]
    split
    · next heq =>
      rw [heq] at hset
      exact ⟨⟨chunk, hchunk, hset⟩, hcallers⟩
    · next heq =>
      rw [heq] at hset
      exact hset
  | jump target =>
    exact withFrame_secure (r := .ok _) hchunk hcallers
      ⟨hf.code, hi.target target rfl, hf.locals⟩
  | jumpIfFalse target =>
    refine withFrame_secure hchunk hcallers (hf.popBoolean.bind fun ⟨b, f⟩ hr => ?_)
    cases b
    · exact ⟨hr.code, hi.target target rfl, hr.locals⟩
    · exact hr
  | «return» => exact leave_secure hf hcallers
  | invoke c member => exact callTarget_secure hchunk hcallers (staticTarget_secures hf c member)
  | callVirtual c member | virtualOrAny c member =>
    exact callTarget_secure hchunk hcallers (virtualTarget_secures hf m.heap c member _)
  | binary op => exact withFrame_secure hchunk hcallers (hf.binary op)
  | unary op => exact withFrame_secure hchunk hcallers (hf.unary op)
  | isInstance c nullable | isNull =>
    exact withFrame_secure hchunk hcallers (hf.pop.bind fun _ hr => hr.push _)
  | cast c nullable => exact withFrame_secure hchunk hcallers (castTop_secures hf c nullable)
  | assert =>
    refine withFrame_secure hchunk hcallers ((Frame.Runs.peekAt 0).bind fun v _ => ?_)
    split
    · trivial
    · exact hf

end

/-- A step keeps every frame in a chunk of the image. -/
theorem step_secure (h : image.validate = .ok ()) (hm : m.Secure image) :
    (m.step image).Secure image := by
  obtain ⟨⟨chunk, hchunk, hf⟩, hcallers⟩ := hm
  have hfetch := hf.fetch hchunk
  unfold step
  split
  · next i frame heq =>
    rw [heq] at hfetch
    exact execute_secure (m := { m with frame }) hchunk hfetch.2 hcallers
      (Image.admits_of_validate h hchunk hfetch.1)
  · next heq =>
    rw [heq] at hfetch
    exact hfetch

/-- So does a run, and it ends in no other fault. -/
theorem run_secure (h : image.validate = .ok ()) (hm : m.Secure image) (bound : Nat) :
    (∀ m', m.run image bound = .unfinished m' → m'.Secure image) ∧
      ∀ cause console, m.run image bound = .faulted cause console → cause.Residual image := by
  -- Induction on the number of steps; `Machine.Secure` is what one step hands to the next.
  induction bound generalizing m with
  | zero =>
    refine ⟨fun m' hrun => ?_, fun cause console hrun => ?_⟩
    · cases hrun
      exact hm
    · cases hrun
  | succ bound ih =>
    have hstep : (m.step image).Secure image := step_secure h hm
    simp only [run]
    split
    · next heq =>
      rw [heq] at hstep
      exact ih hstep
    · exact ⟨nofun, nofun⟩
    · next heq =>
      rw [heq] at hstep
      refine ⟨nofun, fun cause console hrun => ?_⟩
      cases hrun
      exact hstep

end Machine

/-- Validity makes the indices in the code of an image safe. No run faults for a local slot, a constant or
a construct that is not there; a native that gets too few or too many arguments faults before it looks at
any of them; and the other faults of code are the code's end, the offset of a field that the object does
not have, and a number of arguments that does not fit. -/
theorem Image.run_of_validate {image : Image} (h : image.validate = .ok ()) (bound : Nat)
    (console : Console) :
    (∀ f c, image.run bound console = .faulted (.code f) c → f.Residual image) ∧
    ∀ (heap : Heap) (native : Native) (args : List Value), args.length ≠ native.arity →
      native.call image heap console args =
        (.error (.code (.nativeArguments native args.length)), console) :=
  ⟨fun f c hrun => (Machine.run_secure h (Machine.start_secure console) bound).2 (.code f) c hrun,
    fun heap native args hne => Native.apply_of_ne (heap.text image) console native args hne⟩

/-- An image that no program has: its two constructs inherit from each other, and the initializer of one
asks the other's instance for a field that it does not have. -/
def cyclic : Image where
  magic := Image.formatMagic
  version := Image.formatVersion
  constructs := #[
    ⟨"A", some 1, 0, BodyTable.empty.insert 0 (.compiled ⟨#[.load 0, .getField 3], 1, 1⟩)⟩,
    ⟨"B", some 0, 0, .empty⟩]
  main := 0
  constants := .empty
  members := #[.initializer]
  entry := ⟨#[.new 1], 0, 0⟩

/-- The image is valid, and its run ends with one of the faults that validity leaves. -/
theorem cyclic_run_of_validate : cyclic.validate = .ok () ∧
    cyclic.run 10 (.ofText "") = .faulted (.code (.fieldOffset 3 0)) (.ofText "") ∧
    (CodeFault.fieldOffset 3 0).Residual cyclic ∧
    Native.anyEqual.call cyclic .empty (.ofText "") [.null] =
      (.error (.code (.nativeArguments .anyEqual 1)), .ofText "") := by
  have hvalid : cyclic.validate = .ok () := by decide
  have hrun : cyclic.run 10 (.ofText "") = .faulted (.code (.fieldOffset 3 0)) (.ofText "") := by
    have hfault : (match cyclic.run 10 (.ofText "") with
        | .faulted cause console => decide (cause = .code (.fieldOffset 3 0) ∧ console = .ofText "")
        | _ => false) = true := by decide +kernel
    split at hfault
    · next heq =>
      obtain ⟨rfl, rfl⟩ := of_decide_eq_true hfault
      exact heq
    · cases hfault
  obtain ⟨hfault, hnative⟩ := Image.run_of_validate hvalid 10 (.ofText "")
  exact ⟨hvalid, hrun, hfault _ _ hrun, hnative .empty .anyEqual [.null] (by decide)⟩

end ClassLang
