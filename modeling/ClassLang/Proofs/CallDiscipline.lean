import ClassLang.Proofs.ControlFlow
import ClassLang.Proofs.Landing

/-!
# The discipline of calls

A call of a chunk, and the making of an object with a field initializer, put a frame above the one at work,
which waits behind the instruction without the arguments (`Machine.Enters`). Only `return` reaches a frame
that waits, and only the latest one, to which it hands its result (`Machine.Returns`). Frames that wait are
therefore the same in all states of a run, whatever is called above them, until the `return` that takes the
frame directly above them away (`Machine.calls_disciplined`).

Nothing is asked of the image. The instructions may be any at all, and no check has to let them through.
-/

namespace ClassLang

/-- The frame as it waits behind the instruction that it executes, without the operands that were taken. -/
def Frame.waiting (taken : Nat) (f : Frame) : Frame :=
  { f with ip := f.ip + 1, stack := f.stack.drop taken }

theorem Frame.Took.eq_waiting {n : Nat} {f f' : Frame} (h : Took n { f with ip := f.ip + 1 } f') :
    f' = f.waiting n := by
  obtain ⟨code, ip, stack, locals⟩ := f'
  obtain ⟨rfl, rfl, rfl, _, rfl⟩ := h
  rfl

namespace Machine

/-- A chunk starts above the frame at work, which waits without as many operands as the instruction takes.
A call hands them to the chunk, the one pushed first in front. An object is handed to its own field
initializer. -/
inductive Enters (image : Image) (m : Machine) : Nat → Machine → Prop
  | call {i : Instr} {c member own owner : Nat} {chunk : Chunk} :
      m.frame.code[m.frame.ip]? = some i →
      i ∈ [.invoke c member, .callVirtual c member, .virtualOrAny c member] →
      image.resolve? own member = some (owner, .compiled chunk) →
      image.pops? i = some chunk.arguments → chunk.arguments ≤ m.frame.depth →
      Enters image m chunk.arguments
        ⟨.start chunk (m.frame.stack.take chunk.arguments).reverse,
          m.frame.waiting chunk.arguments :: m.callers, m.heap, m.console⟩
  | new {index member owner : Nat} {c : Construct} {chunk : Chunk} :
      m.frame.code[m.frame.ip]? = some (.new index) → image.construct? index = some c →
      image.memberId? .initializer = some member →
      image.resolve? index member = some (owner, .compiled chunk) →
      Enters image m 0
        ⟨.start chunk [(m.heap.allocate index c.fieldCount).1], m.frame.waiting 0 :: m.callers,
          (m.heap.allocate index c.fieldCount).2, m.console⟩

/-- A step in which the frame at work returns to the frame that waits for it, whose operands get the result on top and which
is else as it was. -/
structure Returns (caller : Frame) (callers : List Frame) (m m' : Machine) : Prop where
  instr : m.frame.code[m.frame.ip]? = some .return
  waiting : m.callers = caller :: callers
  result : ∃ v rest, m.frame.stack = v :: rest ∧ m' = ⟨caller.push v, callers, m.heap, m.console⟩

/-- The frames `below` wait, unchanged and in their order, in all states of the first `bound` steps. -/
def KeepsBelow (image : Image) (m : Machine) (below : List Frame) (bound : Nat) : Prop :=
  ∀ l ≤ bound, ∀ m', m.run image l = .unfinished m' → below <:+ m'.callers

variable {image : Image} {m m' : Machine}

/-! ## Single steps -/

theorem call_pushes {body : Body} {args : List Value} (h : call image m body args = .next m')
    (hpushed : m.callers.length < m'.callers.length) :
    ∃ chunk, body = .compiled chunk ∧
      m' = ⟨.start chunk args, m.frame :: m.callers, m.heap, m.console⟩ := by
  cases body with
  | native native arguments =>
    simp only [call] at h
    split at h
    · cases h
      exact absurd hpushed (Nat.lt_irrefl _)
    · cases h
  | compiled chunk =>
    cases h
    exact ⟨chunk, rfl, rfl⟩

/-- The body of a virtual call takes as many arguments as the static construct says. -/
theorem virtualTarget_arguments {heap : Heap} {f f' : Frame} {c member : Nat} {onNull : Option Nat}
    {body : Body} {args : List Value}
    (h : virtualTarget image heap f c member onNull = .ok (body, args, f')) :
    ∃ own owner, image.resolve? own member = some (owner, body) ∧
      image.pops? (.callVirtual c member) = some body.arguments ∧ f.Took body.arguments f' ∧
      args = (f.stack.take body.arguments).reverse := by
  simp only [virtualTarget, bind_eq_ok, Prod.exists, resolve_ok] at h
  obtain ⟨_, declared, hdeclared, _, _, h⟩ := h
  split at h
  · cases h
  · next own _ =>
    simp only [bind_eq_ok, Prod.exists, resolve_ok] at h
    obtain ⟨owner, body', hbody, h⟩ := h
    split at h
    · cases h
    · next hsame =>
      simp only [bind_eq_ok, pure_eq_ok, Prod.exists, Prod.mk.injEq] at h
      obtain ⟨_, _, hpop, rfl, rfl, rfl⟩ := h
      rw [← not_not.mp hsame] at hpop
      obtain ⟨htook, hargs⟩ := Frame.popMany_took hpop
      exact ⟨own, owner, hbody, by simp [Image.pops?, hdeclared, not_not.mp hsame], htook, hargs⟩

/-- A call of a target that lets the frame at work wait. -/
theorem callTarget_enters {i : Instr} {target : Except Fault Target} (c member : Nat)
    (hi : m.frame.code[m.frame.ip]? = some i)
    (hcall : i ∈ [.invoke c member, .callVirtual c member, .virtualOrAny c member])
    (htarget : ∀ body args f, target = .ok (body, args, f) →
      ∃ own owner, image.resolve? own member = some (owner, body) ∧
        image.pops? i = some body.arguments ∧
        Frame.Took body.arguments { m.frame with ip := m.frame.ip + 1 } f ∧
        args = (m.frame.stack.take body.arguments).reverse)
    (h : callTarget image { m with frame := { m.frame with ip := m.frame.ip + 1 } } target = .next m')
    (hpushed : m.callers.length < m'.callers.length) : ∃ n, m.Enters image n m' := by
  cases target with
  | error e => cases h
  | ok target =>
    obtain ⟨body, args, f⟩ := target
    obtain ⟨own, owner, hbody, hpops, htook, rfl⟩ := htarget _ _ _ rfl
    obtain ⟨chunk, rfl, rfl⟩ := call_pushes h hpushed
    obtain rfl := htook.eq_waiting
    exact ⟨_, .call hi hcall hbody hpops htook.enough⟩

theorem new_enters {index : Nat} (hi : m.frame.code[m.frame.ip]? = some (.new index))
    (h : new image { m with frame := { m.frame with ip := m.frame.ip + 1 } } index = .next m')
    (hpushed : m.callers.length < m'.callers.length) : ∃ n, m.Enters image n m' := by
  unfold new at h
  split at h
  · cases h
  · next c hc =>
    dsimp only at h
    split at h
    · cases h
      exact absurd hpushed (Nat.lt_irrefl _)
    · next member hmember =>
      split at h
      · next owner body hbody =>
        obtain ⟨chunk, rfl, rfl⟩ := call_pushes h hpushed
        exact ⟨_, .new hi hc hmember (resolve_ok.mp hbody)⟩
      · cases h

/-- Where a step puts a frame above the one at work, a chunk is called or an object is made. -/
theorem step_enters (h : m.step image = .next m') (hpushed : m.callers.length < m'.callers.length) :
    ∃ n, m.Enters image n m' := by
  obtain ⟨i, hi, hmoves⟩ := step_moves h
  simp only [step, Frame.fetch, hi] at h
  cases hmoves with
  | within => exact absurd hpushed (Nat.lt_irrefl _)
  | leaves _ hcallers _ =>
    exact absurd hpushed (by simp [hcallers])
  | enters _ hcallee _ _ =>
    cases i with
    | new index => exact new_enters hi h hpushed
    | invoke c member =>
      refine callTarget_enters c member hi (by simp) (fun body args f ht => ?_) h hpushed
      obtain ⟨owner, hbody, htook, hargs⟩ := staticTarget_took ht
      exact ⟨_, owner, hbody, by simp [Image.pops?, hbody], htook, hargs⟩
    | callVirtual c member | virtualOrAny c member =>
      exact callTarget_enters c member hi (by simp) (fun _ _ _ ht => virtualTarget_arguments ht) h hpushed
    | _ => cases hcallee

/-- A step leaves the frames that wait alone, or it returns to the latest of them. -/
theorem step_waiting {caller : Frame} {callers : List Frame} (hwait : caller :: callers <:+ m.callers)
    (h : m.step image = .next m') :
    caller :: callers <:+ m'.callers ∨ Returns caller callers m m' := by
  obtain ⟨i, hi, hmoves⟩ := step_moves h
  cases hmoves with
  | within => exact .inl hwait
  | enters => exact .inl (hwait.trans (List.suffix_cons _ _))
  | @leaves top others v rest hreturn hcallers hstack =>
    subst hreturn
    rcases List.suffix_cons_iff.mp (hcallers ▸ hwait) with heq | hbelow
    · obtain ⟨rfl, rfl⟩ := List.cons.inj heq
      exact .inr ⟨hi, hcallers, v, rest, hstack, rfl⟩
    · exact .inl hbelow

section Halting

variable {v : Value} {heap : Heap} {console : Console}

theorem withFrame_ne_halt (r : Except Fault Frame) : m.withFrame r ≠ .halt v heap console := by
  cases r <;> simp [withFrame]

theorem call_ne_halt (body : Body) (args : List Value) : m.call image body args ≠ .halt v heap console := by
  unfold call
  repeat' split
  all_goals simp

theorem callTarget_ne_halt (target : Except Fault Target) :
    m.callTarget image target ≠ .halt v heap console := by
  cases target with
  | ok target => exact call_ne_halt _ _
  | error e => simp [callTarget]

/-- The machine halts in its last frame only. -/
theorem execute_halt {i : Instr} (h : m.execute image i = .halt v heap console) : m.callers = [] := by
  cases i <;> simp only [execute] at h
  case «return» =>
    unfold leave at h
    split at h
    · cases h
    · assumption
    · cases h
  case new index =>
    unfold new at h
    repeat' split at h
    all_goals first | cases h | exact absurd h (call_ne_halt _ _)
  case setField offset => split at h <;> cases h
  case invoke | callVirtual | virtualOrAny => exact absurd h (callTarget_ne_halt _)
  all_goals exact absurd h (withFrame_ne_halt _)

theorem step_halt (h : m.step image = .halt v heap console) : m.callers = [] := by
  unfold step at h
  split at h
  · next i f _ => exact execute_halt (m := { m with frame := f }) h
  · cases h

end Halting

/-! ## Runs -/

theorem KeepsBelow.zero {below : List Frame} (h : below <:+ m.callers) : m.KeepsBelow image below 0 := by
  intro l hl m' hm'
  obtain rfl := Nat.le_zero.mp hl
  cases hm'
  exact h

theorem KeepsBelow.succ {below : List Frame} {bound : Nat} (h : below <:+ m.callers)
    (hrest : ∀ m', m.step image = .next m' → m'.KeepsBelow image below bound) :
    m.KeepsBelow image below (bound + 1) := by
  intro l hl m₁ hm₁
  cases l with
  | zero => exact KeepsBelow.zero h 0 (Nat.le_refl _) m₁ hm₁
  | succ l =>
    rw [run] at hm₁
    split at hm₁
    · next m' hstep => exact hrest m' hstep l (Nat.le_of_succ_le_succ hl) m₁ hm₁
    · cases hm₁
    · cases hm₁

/-- In a run, the frames that wait stay as they are and the machine does not halt, or there is a first step
that returns to the latest of them. -/
theorem run_waiting {caller : Frame} {callers : List Frame} (hwait : caller :: callers <:+ m.callers)
    (bound : Nat) :
    (m.KeepsBelow image (caller :: callers) bound ∧
        ∀ v heap console, m.run image bound ≠ .halted v heap console) ∨
      ∃ l < bound, m.KeepsBelow image (caller :: callers) l ∧ ∃ m₁ m₂,
        m.run image l = .unfinished m₁ ∧ m₁.step image = .next m₂ ∧ Returns caller callers m₁ m₂ := by
  induction bound generalizing m with
  | zero => exact .inl ⟨.zero hwait, by simp [run]⟩
  | succ bound ih =>
    cases hstep : m.step image with
    | fault e console => exact .inl ⟨.succ hwait (by simp [hstep]), by simp [run, hstep]⟩
    | halt v heap console =>
      rw [step_halt hstep] at hwait
      exact absurd hwait (by simp)
    | next m' =>
      rcases step_waiting hwait hstep with hwait' | hreturns
      · rcases ih hwait' with ⟨hkeeps, hhalt⟩ | ⟨l, hl, hkeeps, m₁, m₂, hrun, hstep', hreturns⟩
        · refine .inl ⟨.succ hwait fun m₁ h => ?_, by simpa [run, hstep] using hhalt⟩
          cases hstep.symm.trans h
          exact hkeeps
        · refine .inr ⟨l + 1, Nat.succ_lt_succ hl, .succ hwait fun m₁ h => ?_, m₁, m₂, ?_, hstep', hreturns⟩
          · cases hstep.symm.trans h
            exact hkeeps
          · simpa [run, hstep] using hrun
      · exact .inr ⟨0, Nat.succ_pos _, .zero hwait, m, m', rfl, hstep, hreturns⟩

/-- Where a step puts a frame above the one at work, it is a call or the making of an object, and it takes
no more from the frame at work than the arguments. From there on the frames below wait unchanged, and the
machine does not halt, until a `return` whose result is all that the frame below gets. -/
theorem calls_disciplined (h : m.step image = .next m')
    (hpushed : m.callers.length < m'.callers.length) :
    ∃ n, m.Enters image n m' ∧ ∀ bound,
      (m'.KeepsBelow image (m.frame.waiting n :: m.callers) bound ∧
          ∀ v heap console, m'.run image bound ≠ .halted v heap console) ∨
        ∃ l < bound, m'.KeepsBelow image (m.frame.waiting n :: m.callers) l ∧ ∃ m₁ m₂,
          m'.run image l = .unfinished m₁ ∧ m₁.step image = .next m₂ ∧
          Returns (m.frame.waiting n) m.callers m₁ m₂ := by
  obtain ⟨n, henters⟩ := step_enters h hpushed
  have hwait : m.frame.waiting n :: m.callers <:+ m'.callers := by
    cases henters <;> exact List.suffix_refl _
  exact ⟨n, henters, run_waiting hwait⟩

end Machine

/-- An image that calls a member with an operand below the argument. The member calls another one. -/
def nesting : Image where
  __ := Image.ofCode #[.pushOne, .pushFalse, .invoke 0 0, .return]
  constructs := #[⟨"any", none, 0, (BodyTable.empty.insert 0
    (.compiled ⟨#[.load 0, .invoke 0 1, .return], 1, 1⟩)).insert 1 (.compiled ⟨#[.pushTrue, .return], 1, 1⟩)⟩]
  members := #[.named "outer", .named "inner"]

/-- The third step calls the first member. -/
theorem nesting_calls_disciplined : ∃ m m', nesting.run 2 (.ofText "") = .unfinished m ∧
    m.step nesting = .next m' ∧ m.callers.length < m'.callers.length ∧
    ∃ n, m.Enters nesting n m' ∧ ∀ bound,
      (m'.KeepsBelow nesting (m.frame.waiting n :: m.callers) bound ∧
          ∀ v heap console, m'.run nesting bound ≠ .halted v heap console) ∨
        ∃ l < bound, m'.KeepsBelow nesting (m.frame.waiting n :: m.callers) l ∧ ∃ m₁ m₂,
          m'.run nesting l = .unfinished m₁ ∧ m₁.step nesting = .next m₂ ∧
          m₁.Returns (m.frame.waiting n) m.callers m₂ := by
  have hrun : nesting.run 2 (.ofText "") = .unfinished ⟨⟨nesting.entry.code, 2,
    [.boolean false, .number 1.0], #[]⟩, [], .empty, .ofText ""⟩ := rfl
  refine ⟨_, _, hrun, rfl, ?_, Machine.calls_disciplined rfl ?_⟩
  · decide
  · decide

end ClassLang
