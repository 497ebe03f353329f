import ClassLang.Proofs.Validation

/-!
# The flow of control

What an instruction does to the frame that executes it, as a table: where the frame goes on
(`Instr.successors`), how many operands it takes (`Image.pops?`) and how many it leaves (`Instr.pushes`).
The machine keeps to the table, whatever the image (`Machine.step_moves`): the frame at work goes on, or it
waits for the result of a chunk that is called, or it hands its own result to the frame below.

A property that holds of a frame that starts a chunk, and that single instructions keep, therefore holds of
all frames of a run, also of those that wait (`Machine.run_frames`).
-/

namespace ClassLang

/-! ## The table -/

namespace Instr

/-- The indices at which a frame may go on behind the instruction at `index`. -/
def successors (index : Nat) : Instr → List Nat
  | .jump target => [target]
  | .jumpIfFalse target => [index + 1, target]
  | .return => []
  | _ => [index + 1]

/-- The number of operands that an instruction leaves in the place of those that it takes, the result of a
call among them. -/
def pushes : Instr → Nat
  | .pop | .store _ | .jump _ | .jumpIfFalse _ | .return => 0
  | .dup => 2
  | _ => 1

/-- The instruction goes on at the next one. -/
def Straight (i : Instr) : Prop := ∀ index, i.successors index = [index + 1]

end Instr

/-- The number of operands that an instruction takes. A call takes the arguments of the body that its static
construct has, and there is no such number if it has none. -/
def Image.pops? (image : Image) : Instr → Option Nat
  | .pushConst _ | .pushZero | .pushOne | .pushTrue | .pushFalse | .pushNull | .load _ | .new _
  | .jump _ => some 0
  | .pop | .dup | .store _ | .getField _ | .jumpIfFalse _ | .return | .unary _ | .isInstance _ _ | .isNull
  | .cast _ _ | .assert => some 1
  | .setField _ | .binary _ => some 2
  | .invoke c member | .callVirtual c member | .virtualOrAny c member =>
    (image.resolve? c member).map (·.2.arguments)

/-- The member that an instruction calls. One that makes an object calls its field initializer. -/
def Image.callee? (image : Image) : Instr → Option Nat
  | .new _ => image.memberId? .initializer
  | i => i.member?

/-- Control may pass from one index of the code to another. -/
def Leads (code : Array Instr) (i j : Nat) : Prop :=
  ∃ instr, code[i]? = some instr ∧ j ∈ instr.successors i

/-- What an instruction makes of the frame that executes it. The results of a call that are still due are
not among its operands. -/
structure Frame.Passes (image : Image) (i : Instr) (due : Nat) (f f' : Frame) : Prop where
  code : f'.code = f.code
  next : f'.ip ∈ i.successors f.ip
  operands : ∃ n pushed, image.pops? i = some n ∧ n ≤ f.depth ∧ f'.stack = pushed ++ f.stack.drop n ∧
    pushed.length + due = i.pushes
  slots : ∀ s, i ≠ .store s → f'.locals[s]? = f.locals[s]?

/-- The objects of one heap are there in another, with no others. -/
def Heap.SameObjects (h h' : Heap) : Prop := ∀ v, h'.construct? v = h.construct? v

/-- What the instruction `i` of the frame at work makes of a machine. -/
inductive Machine.Moves (image : Image) (m : Machine) (i : Instr) : Machine → Prop
  | within {f : Frame} {heap : Heap} {console : Console} :
      m.frame.Passes image i 0 f → ((∀ k, i ≠ .new k) → m.heap.SameObjects heap) →
      Moves image m i ⟨f, m.callers, heap, console⟩
  | enters {f : Frame} {chunk : Chunk} {args : List Value} {heap : Heap} {c member owner : Nat} :
      m.frame.Passes image i 1 f → image.callee? i = some member →
      image.resolve? c member = some (owner, .compiled chunk) →
      ((∀ k, i ≠ .new k) → m.heap.SameObjects heap) →
      Moves image m i ⟨.start chunk args, f :: m.callers, heap, m.console⟩
  | leaves {caller : Frame} {callers : List Frame} {v : Value} {rest : List Value} :
      i = .return → m.callers = caller :: callers → m.frame.stack = v :: rest →
      Moves image m i ⟨caller.push v, callers, m.heap, m.console⟩

/-! ## Operands -/

/-- A frame whose first `n` operands were taken is another one. -/
structure Frame.Took (n : Nat) (f f' : Frame) : Prop where
  code : f'.code = f.code
  ip : f'.ip = f.ip
  locals : f'.locals = f.locals
  enough : n ≤ f.depth
  stack : f'.stack = f.stack.drop n

theorem map_eq_ok {ε α β : Type} {x : Except ε α} {g : α → β} {b : β} :
    x.map g = .ok b ↔ ∃ a, x = .ok a ∧ g a = b := by
  cases x <;> simp [Except.map]

namespace Frame

variable {f f' f'' : Frame} {n k : Nat} {v : Value}

theorem Took.zero (f : Frame) : Took 0 f f := ⟨rfl, rfl, rfl, Nat.zero_le _, rfl⟩

theorem Took.trans (h : Took n f f') (h' : Took k f' f'') : Took (n + k) f f'' where
  code := h'.code.trans h.code
  ip := h'.ip.trans h.ip
  locals := h'.locals.trans h.locals
  enough := by
    have henough := h'.enough
    rw [depth, h.stack, List.length_drop] at henough
    have hn : n ≤ f.stack.length := h.enough
    exact Nat.add_le_of_le_sub' hn henough
  stack := by rw [h'.stack, h.stack, List.drop_drop]

theorem pop_took (h : f.pop = .ok (v, f')) : Took 1 f f' := by
  unfold pop at h
  split at h
  · next v' rest hstack =>
    cases h
    exact ⟨rfl, rfl, rfl, by simp [depth, hstack], by simp [hstack]⟩
  · cases h

theorem popMany_took {args : List Value} (h : f.popMany n = .ok (args, f')) :
    Took n f f' ∧ args = (f.stack.take n).reverse := by
  unfold popMany at h
  split at h
  · next hle =>
    cases h
    exact ⟨⟨rfl, rfl, rfl, hle, rfl⟩, rfl⟩
  · cases h

theorem peek_took (h : f.peek = .ok v) : ∃ rest, f.stack = v :: rest := by
  unfold peek peekAt at h
  split at h
  · next v' hv =>
    cases h
    obtain ⟨rest, hrest⟩ := List.head?_eq_some_iff.mp (List.head?_eq_getElem? ▸ hv)
    exact ⟨rest, hrest⟩
  · cases h

theorem popNumber_took {x : Float} (h : f.popNumber = .ok (x, f')) : Took 1 f f' := by
  simp only [popNumber, bind_eq_ok, pure_eq_ok, Prod.exists, Prod.mk.injEq] at h
  obtain ⟨_, _, hpop, _, _, rfl, rfl⟩ := h
  exact pop_took hpop

theorem popBoolean_took {b : Bool} (h : f.popBoolean = .ok (b, f')) : Took 1 f f' := by
  simp only [popBoolean, bind_eq_ok, pure_eq_ok, Prod.exists, Prod.mk.injEq] at h
  obtain ⟨_, _, hpop, _, _, rfl, rfl⟩ := h
  exact pop_took hpop

theorem binary_took {op : BinaryOp} (h : f.binary op = .ok f'') :
    ∃ f' v, Took 2 f f' ∧ f'' = f'.push v := by
  have hnumbers : ∀ g, f.onNumbers g = .ok f'' → ∃ f' v, Took 2 f f' ∧ f'' = f'.push v := by
    intro g h
    simp only [onNumbers, bind_eq_ok, pure_eq_ok, Prod.exists] at h
    obtain ⟨_, _, h₁, _, _, h₂, rfl⟩ := h
    exact ⟨_, _, (popNumber_took h₁).trans (popNumber_took h₂), rfl⟩
  have hbooleans : ∀ g, f.onBooleans g = .ok f'' → ∃ f' v, Took 2 f f' ∧ f'' = f'.push v := by
    intro g h
    simp only [onBooleans, bind_eq_ok, pure_eq_ok, Prod.exists] at h
    obtain ⟨_, _, h₁, _, _, h₂, rfl⟩ := h
    exact ⟨_, _, (popBoolean_took h₁).trans (popBoolean_took h₂), rfl⟩
  have hvalues : ∀ g, f.onValues g = .ok f'' → ∃ f' v, Took 2 f f' ∧ f'' = f'.push v := by
    intro g h
    simp only [onValues, bind_eq_ok, pure_eq_ok, Prod.exists] at h
    obtain ⟨_, _, h₁, _, _, h₂, rfl⟩ := h
    exact ⟨_, _, (pop_took h₁).trans (pop_took h₂), rfl⟩
  cases op <;> simp only [binary] at h
  case equal | notEqual => exact hvalues _ h
  case and | or => exact hbooleans _ h
  all_goals exact hnumbers _ h

theorem unary_took {op : UnaryOp} (h : f.unary op = .ok f'') :
    ∃ f' v, Took 1 f f' ∧ f'' = f'.push v := by
  cases op with
  | negate =>
    simp only [unary, bind_eq_ok, pure_eq_ok, Prod.exists] at h
    obtain ⟨_, _, h, rfl⟩ := h
    exact ⟨_, _, popNumber_took h, rfl⟩
  | not =>
    simp only [unary, bind_eq_ok, pure_eq_ok, Prod.exists] at h
    obtain ⟨_, _, h, rfl⟩ := h
    exact ⟨_, _, popBoolean_took h, rfl⟩

/-- The frame behind an instruction that takes operands, pushes some and goes on. -/
theorem Took.passes {image : Image} {i : Instr} {due : Nat} (h : Took n { f with ip := f.ip + 1 } f')
    (pushed : List Value) (hn : image.pops? i = some n) (hnext : f.ip + 1 ∈ i.successors f.ip)
    (hpushed : pushed.length + due = i.pushes) :
    f.Passes image i due { f' with stack := pushed ++ f'.stack } where
  code := h.code
  next := h.ip ▸ hnext
  operands := ⟨n, pushed, hn, h.enough, by rw [h.stack], hpushed⟩
  slots := fun s _ => by rw [h.locals]

end Frame

namespace Heap

variable {h h' : Heap} {v : Value}

theorem SameObjects.refl (h : Heap) : h.SameObjects h := fun _ => rfl

/-- An assignment to a field keeps the object of its construct. -/
theorem sameObjects_setField {offset : Nat} {target : Value} (hset : h.setField target offset v = .ok h') :
    h.SameObjects h' := by
  unfold setField at hset
  split at hset
  · next address =>
    split at hset
    · next o ho =>
      simp only [bind_eq_ok, pure_eq_ok, Object.setField] at hset
      obtain ⟨o', ho', rfl⟩ := hset
      split at ho'
      · cases ho'
        intro v
        cases v with
        | object address' =>
          simp only [construct?, get?, Array.getElem?_setIfInBounds]
          split
          · next heq =>
            subst heq
            obtain ⟨hlt, hget⟩ := Array.getElem?_eq_some_iff.mp ho
            simp [hlt, hget]
          · rfl
        | _ => rfl
      · cases ho'
    · cases hset
  all_goals cases hset

end Heap

/-! ## Steps -/

namespace Machine

variable {image : Image} {m m' : Machine}

theorem withFrame_moves {i : Instr} {f : Frame} {r : Except Fault Frame}
    (hr : ∀ f', r = .ok f' → m.frame.Passes image i 0 f')
    (h : withFrame { m with frame := f } r = .next m') : Moves image m i m' := by
  cases r with
  | ok f' =>
    cases h
    exact .within (hr f' rfl) fun _ => .refl _
  | error e => cases h

theorem resolve_ok {c member owner : Nat} {body : Body} :
    resolve image c member = .ok (owner, body) ↔ image.resolve? c member = some (owner, body) := by
  unfold resolve
  split <;> simp_all

theorem staticTarget_took {f f' : Frame} {c member : Nat} {body : Body} {args : List Value}
    (h : staticTarget image f c member = .ok (body, args, f')) :
    ∃ owner, image.resolve? c member = some (owner, body) ∧ f.Took body.arguments f' ∧
      args = (f.stack.take body.arguments).reverse := by
  simp only [staticTarget, bind_eq_ok, pure_eq_ok, Prod.exists, Prod.mk.injEq, resolve_ok] at h
  obtain ⟨owner, _, hbody, _, _, hpop, rfl, rfl, rfl⟩ := h
  exact ⟨owner, hbody, Frame.popMany_took hpop⟩

theorem virtualTarget_took {heap : Heap} {f f' : Frame} {c member : Nat} {onNull : Option Nat}
    {body : Body} {args : List Value}
    (h : virtualTarget image heap f c member onNull = .ok (body, args, f')) :
    ∃ n own owner, image.pops? (.callVirtual c member) = some n ∧ f.Took n f' ∧
      image.resolve? own member = some (owner, body) := by
  simp only [virtualTarget, bind_eq_ok, Prod.exists, resolve_ok] at h
  obtain ⟨_, declared, hdeclared, _, _, h⟩ := h
  split at h
  · cases h
  · next own _ =>
    simp only [bind_eq_ok, Prod.exists, resolve_ok] at h
    obtain ⟨owner, body', hbody, h⟩ := h
    split at h
    · cases h
    · simp only [bind_eq_ok, pure_eq_ok, Prod.exists, Prod.mk.injEq] at h
      obtain ⟨_, _, hpop, rfl, rfl, rfl⟩ := h
      exact ⟨_, own, owner, by simp [Image.pops?, hdeclared], (Frame.popMany_took hpop).1, hbody⟩

/-- A call of a body, from a frame whose operands were taken. -/
theorem call_moves {i : Instr} {body : Body} {args : List Value} {f : Frame} {heap : Heap}
    {n c member owner : Nat} (htook : Frame.Took n { m.frame with ip := m.frame.ip + 1 } f)
    (hn : image.pops? i = some n) (hnext : m.frame.ip + 1 ∈ i.successors m.frame.ip)
    (hpushes : i.pushes = 1) (hcallee : image.callee? i = some member)
    (hbody : image.resolve? c member = some (owner, body)) (hheap : (∀ k, i ≠ .new k) → m.heap.SameObjects heap)
    (h : call image ⟨f, m.callers, heap, m.console⟩ body args = .next m') : Moves image m i m' := by
  cases body with
  | native native arguments =>
    simp only [call] at h
    split at h
    · next v console _ =>
      cases h
      exact .within (htook.passes [v] hn hnext hpushes.symm) hheap
    · cases h
  | compiled chunk =>
    cases h
    exact .enters (htook.passes [] hn hnext hpushes.symm) hcallee hbody hheap

theorem new_moves {k : Nat}
    (h : new image { m with frame := { m.frame with ip := m.frame.ip + 1 } } k = .next m') :
    Moves image m (.new k) m' := by
  have hheap : ∀ heap, (∀ k', Instr.new k ≠ .new k') → m.heap.SameObjects heap :=
    fun _ hne => absurd rfl (hne k)
  unfold new at h
  split at h
  · cases h
  · dsimp only at h
    split at h
    · cases h
      exact .within ((Frame.Took.zero _).passes [_] rfl List.mem_cons_self rfl) (hheap _)
    · split at h
      · next hmember _ _ _ hbody =>
        exact call_moves (.zero _) rfl List.mem_cons_self rfl hmember (resolve_ok.mp hbody) (hheap _) h
      · cases h

/-- An instruction keeps to the table. -/
theorem execute_moves {i : Instr}
    (h : execute image { m with frame := { m.frame with ip := m.frame.ip + 1 } } i = .next m') :
    Moves image m i m' := by
  have hzero := Frame.Took.zero { m.frame with ip := m.frame.ip + 1 }
  -- What is pushed stands in front of what is left of the stack.
  cases i <;> simp only [execute] at h
  case pushConst index =>
    refine withFrame_moves (fun f hf => ?_) h
    unfold pushConstant at hf
    split at hf
    · cases hf
      exact hzero.passes [_] rfl List.mem_cons_self rfl
    · cases hf
  case pushZero | pushOne | pushTrue | pushFalse | pushNull =>
    refine withFrame_moves (fun f hf => ?_) h
    cases hf
    exact hzero.passes [_] rfl List.mem_cons_self rfl
  case pop =>
    refine withFrame_moves (fun f hf => ?_) h
    obtain ⟨⟨v, f'⟩, hpop, rfl⟩ := map_eq_ok.mp hf
    exact (Frame.pop_took hpop).passes [] rfl List.mem_cons_self rfl
  case dup =>
    refine withFrame_moves (fun f hf => ?_) h
    obtain ⟨v, hpeek, rfl⟩ := map_eq_ok.mp hf
    obtain ⟨rest, hstack⟩ := Frame.peek_took hpeek
    refine ⟨rfl, List.mem_cons_self, ⟨1, [v, v], rfl, ?_, ?_, rfl⟩, fun s _ => rfl⟩
    · simp_all [Frame.depth]
    · simp_all [Frame.push]
  case load slot =>
    refine withFrame_moves (fun f hf => ?_) h
    obtain ⟨v, _, rfl⟩ := map_eq_ok.mp hf
    exact hzero.passes [v] rfl List.mem_cons_self rfl
  case store slot =>
    refine withFrame_moves (fun f hf => ?_) h
    simp only [bind_eq_ok, Prod.exists, Frame.store] at hf
    obtain ⟨v, f', hpop, hf⟩ := hf
    have htook := Frame.pop_took hpop
    split at hf
    · cases hf
      refine ⟨htook.code, htook.ip ▸ List.mem_cons_self, ⟨1, [], rfl, htook.enough, htook.stack, rfl⟩,
        fun s hs => ?_⟩
      have hne : slot ≠ s := fun heq => hs (heq ▸ rfl)
      simp [hne, htook.locals]
    · cases hf
  case new k => exact new_moves h
  case getField offset =>
    refine withFrame_moves (fun f hf => ?_) h
    simp only [getField, bind_eq_ok, pure_eq_ok, Prod.exists] at hf
    obtain ⟨_, _, hpop, v, _, rfl⟩ := hf
    exact (Frame.pop_took hpop).passes [v] rfl List.mem_cons_self rfl
  case setField offset =>
    split at h
    · next f heap hset =>
      cases h
      simp only [setField, bind_eq_ok, pure_eq_ok, Prod.exists, Prod.mk.injEq] at hset
      obtain ⟨v, _, hpop, _, _, hpop', _, hheap, rfl, rfl⟩ := hset
      exact .within (((Frame.pop_took hpop).trans (Frame.pop_took hpop')).passes [v] rfl
        List.mem_cons_self rfl) fun _ => Heap.sameObjects_setField hheap
    · cases h
  case jump target =>
    refine withFrame_moves (fun f hf => ?_) h
    cases hf
    exact ⟨rfl, List.mem_cons_self, ⟨0, [], rfl, Nat.zero_le _, rfl, rfl⟩, fun s _ => rfl⟩
  case jumpIfFalse target =>
    refine withFrame_moves (fun f hf => ?_) h
    simp only [bind_eq_ok, pure_eq_ok, Prod.exists] at hf
    obtain ⟨b, f', hpop, rfl⟩ := hf
    have htook := Frame.popBoolean_took hpop
    cases b
    · exact ⟨htook.code, by simp [Frame.jump, Instr.successors],
        ⟨1, [], rfl, htook.enough, htook.stack, rfl⟩, fun s _ => by simp [Frame.jump, htook.locals]⟩
    · exact htook.passes [] rfl List.mem_cons_self rfl
  case «return» =>
    unfold leave at h
    split at h
    · cases h
    · cases h
    · next v f caller callers hpop hcallers =>
      cases h
      unfold Frame.pop at hpop
      split at hpop
      · next v' rest hstack =>
        cases hpop
        exact .leaves rfl hcallers hstack
      · cases hpop
  case invoke c member =>
    cases ht : staticTarget image { m.frame with ip := m.frame.ip + 1 } c member with
    | error e =>
      rw [ht] at h
      cases h
    | ok target =>
      obtain ⟨body, args, f⟩ := target
      rw [ht] at h
      obtain ⟨owner, hbody, htook, _⟩ := staticTarget_took ht
      exact call_moves htook (by simp [Image.pops?, hbody]) List.mem_cons_self rfl rfl
        hbody (fun _ => .refl _) h
  case callVirtual c member | virtualOrAny c member =>
    cases ht : virtualTarget image m.heap { m.frame with ip := m.frame.ip + 1 } c member _ with
    | error e =>
      rw [ht] at h
      cases h
    | ok target =>
      obtain ⟨body, args, f⟩ := target
      rw [ht] at h
      obtain ⟨n, own, owner, hn, htook, hbody⟩ := virtualTarget_took ht
      exact call_moves htook hn List.mem_cons_self rfl rfl hbody (fun _ => .refl _) h
  case binary op =>
    refine withFrame_moves (fun f hf => ?_) h
    obtain ⟨f', v, htook, rfl⟩ := Frame.binary_took hf
    exact htook.passes [v] rfl List.mem_cons_self rfl
  case unary op =>
    refine withFrame_moves (fun f hf => ?_) h
    obtain ⟨f', v, htook, rfl⟩ := Frame.unary_took hf
    exact htook.passes [v] rfl List.mem_cons_self rfl
  case isInstance c nullable | isNull =>
    refine withFrame_moves (fun f hf => ?_) h
    simp only [bind_eq_ok, pure_eq_ok, Prod.exists] at hf
    obtain ⟨_, f', hpop, rfl⟩ := hf
    exact (Frame.pop_took hpop).passes [_] rfl List.mem_cons_self rfl
  case cast c nullable =>
    refine withFrame_moves (fun f hf => ?_) h
    simp only [castTop, bind_eq_ok] at hf
    obtain ⟨v, hpeek, hf⟩ := hf
    obtain ⟨rest, hstack⟩ := Frame.peek_took hpeek
    split at hf
    · cases hf
      exact ⟨rfl, List.mem_cons_self, ⟨1, [v], rfl, by simp_all [Frame.depth], by simp_all, rfl⟩,
        fun s _ => rfl⟩
    · cases hf
  case assert =>
    refine withFrame_moves (fun f hf => ?_) h
    simp only [bind_eq_ok] at hf
    obtain ⟨v, hpeek, hf⟩ := hf
    obtain ⟨rest, hstack⟩ := Frame.peek_took hpeek
    split at hf
    · cases hf
    · cases hf
      exact ⟨rfl, List.mem_cons_self, ⟨1, [v], rfl, by simp_all [Frame.depth], by simp_all, rfl⟩,
        fun s _ => rfl⟩

/-- A step keeps to the table. -/
theorem step_moves (h : m.step image = .next m') :
    ∃ i, m.frame.code[m.frame.ip]? = some i ∧ Moves image m i m' := by
  unfold step Frame.fetch at h
  split at h
  · next i f hfetch =>
    split at hfetch
    · next i' hi =>
      cases hfetch
      exact ⟨i, hi, execute_moves h⟩
    · cases hfetch
  · cases h

end Machine

/-! ## Runs -/

/-- A property of frames, with the number of results that are due to them, holds of frames that start a
chunk of the image, and what a step makes of a frame has it too. -/
structure Image.Keeps (image : Image) (P : Nat → Frame → Prop) : Prop where
  starts : ∀ chunk args, image.HasChunk chunk → P 0 (.start chunk args)
  passes : ∀ f f' i due, P 0 f → f.code[f.ip]? = some i → f.Passes image i due f' → P due f'
  resumes : ∀ f v, P 1 f → P 0 (f.push v)

/-- A property of all frames of a machine. To those that wait a result is due. -/
structure Machine.Frames (P : Nat → Frame → Prop) (m : Machine) : Prop where
  frame : P 0 m.frame
  callers : ∀ f ∈ m.callers, P 1 f

/-- The frame that has `height` others below it. -/
def Machine.frameAt? (m : Machine) (height : Nat) : Option Frame := (m.frame :: m.callers).reverse[height]?

namespace Machine

variable {image : Image} {P : Nat → Frame → Prop} {m m' : Machine}

theorem step_frames (K : image.Keeps P) (hm : m.Frames P) (h : m.step image = .next m') :
    m'.Frames P := by
  obtain ⟨i, hi, hmoves⟩ := step_moves h
  cases hmoves with
  | within hpasses _ => exact ⟨K.passes _ _ _ _ hm.frame hi hpasses, hm.callers⟩
  | enters hpasses _ hbody _ =>
    exact ⟨K.starts _ _ (Image.hasChunk_of_resolve hbody),
      List.forall_mem_cons.mpr ⟨K.passes _ _ _ _ hm.frame hi hpasses, hm.callers⟩⟩
  | leaves _ hcallers _ =>
    have hall := hm.callers
    rw [hcallers] at hall
    obtain ⟨hcaller, hrest⟩ := List.forall_mem_cons.mp hall
    exact ⟨K.resumes _ _ hcaller, hrest⟩

/-- What steps keep holds throughout a run. -/
theorem run_keeps {Q : Machine → Prop} (hkeeps : ∀ m m', Q m → m.step image = .next m' → Q m') {bound : Nat}
    (hm : Q m) (h : m.run image bound = .unfinished m') : Q m' := by
  induction bound generalizing m with
  | zero =>
    cases h
    exact hm
  | succ bound ih =>
    rw [run] at h
    split at h
    · next m₁ hstep => exact ih (hkeeps m m₁ hm hstep) h
    · cases h
    · cases h

/-- Every frame of a run has a property that steps keep. -/
theorem run_frames (K : image.Keeps P) {bound : Nat} (hm : m.Frames P)
    (h : m.run image bound = .unfinished m') : m'.Frames P :=
  run_keeps (fun _ _ => step_frames K) hm h

theorem start_frames (K : image.Keeps P) (console : Console) : (start image console).Frames P :=
  ⟨K.starts _ _ (.inl rfl), by simp [start]⟩

/-- What becomes of the frame at work, if it is still there after the step. -/
theorem frameAt_step {f : Frame} (h : m.step image = .next m')
    (hf : m'.frameAt? m.callers.length = some f) :
    ∃ i due, m.frame.code[m.frame.ip]? = some i ∧ m.frame.Passes image i due f := by
  obtain ⟨i, hi, hmoves⟩ := step_moves h
  cases hmoves with
  | within hpasses _ =>
    rw [frameAt?, List.reverse_cons, List.getElem?_append_right (by simp)] at hf
    obtain rfl : _ = f := by simpa using hf
    exact ⟨i, 0, hi, hpasses⟩
  | enters hpasses _ _ _ =>
    rw [frameAt?, List.reverse_cons, List.reverse_cons, List.append_assoc,
      List.getElem?_append_right (by simp)] at hf
    obtain rfl : _ = f := by simpa using hf
    exact ⟨i, 1, hi, hpasses⟩
  | leaves _ hcallers _ =>
    rw [frameAt?, hcallers] at hf
    simp at hf

end Machine

end ClassLang
