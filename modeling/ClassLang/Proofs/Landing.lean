import ClassLang.Proofs.Validation

/-!
# Where jumps land

Validity bounds the target of a jump by the number of instructions of its chunk, and the bound itself is
let through. A jump of a valid image therefore lands on an instruction of its chunk, or exactly behind the
last one, where the next step faults (`Image.jump_lands`). The second case does happen
(`overshooting_fetch`): validity alone does not keep a run inside its code.
-/

namespace ClassLang

/-- The next instruction is a jump to a target, and it is taken: it has no condition, or its condition is
false. -/
def Machine.TakesJump (m : Machine) (target : Nat) : Prop :=
  m.frame.code[m.frame.ip]? = some (.jump target) ∨
    m.frame.code[m.frame.ip]? = some (.jumpIfFalse target) ∧ m.frame.stack.head? = some (.boolean false)

namespace Machine

variable {image : Image} {m : Machine} {target : Nat}

/-- A jump that is taken sets the instruction pointer and leaves the code alone. -/
theorem step_takesJump (h : m.TakesJump target) : ∃ stack, m.step image =
    .next { m with frame := { m.frame with ip := target, stack } } := by
  rcases h with hi | ⟨hi, htop⟩
  · refine ⟨m.frame.stack, ?_⟩
    simp only [step, Frame.fetch, hi]
    rfl
  · obtain ⟨stack, hstack⟩ := List.head?_eq_some_iff.mp htop
    refine ⟨stack, ?_⟩
    simp only [step, Frame.fetch, hi, execute, Frame.popBoolean, Frame.pop, hstack]
    rfl

/-- Where there is no instruction, the machine faults. -/
theorem step_pastEnd (h : m.frame.code[m.frame.ip]? = none) :
    m.step image = .fault (.code (.pastEnd m.frame.ip)) m.console := by
  simp only [step, Frame.fetch, h]

/-- The target of a jump of a chunk that has been checked is at most the chunk's end. -/
theorem target_le {chunk : Chunk} (h : image.validate = .ok ()) (hchunk : image.HasChunk chunk)
    (hcode : m.frame.code = chunk.code) (hjump : m.TakesJump target) : target ≤ chunk.code.size := by
  have hat : ∃ i ∈ chunk.code, i.jumpTarget? = some target := by
    rw [TakesJump, hcode] at hjump
    rcases hjump with hi | ⟨hi, _⟩
    · exact ⟨_, Array.mem_of_getElem? hi, rfl⟩
    · exact ⟨_, Array.mem_of_getElem? hi, rfl⟩
  obtain ⟨i, hi, htarget⟩ := hat
  exact (Image.admits_of_validate h hchunk hi).target target htarget

end Machine

/-- In every state of a run of a valid image, a jump that is taken stays in its chunk. It lands on an
instruction, which the next step fetches; or it leads exactly behind the last instruction, and the next step
faults. -/
theorem Image.jump_lands {image : Image} (h : image.validate = .ok ()) {bound : Nat} {console : Console}
    {m : Machine} (hrun : image.run bound console = .unfinished m) {target : Nat}
    (hjump : m.TakesJump target) :
    ∃ m' chunk, m.step image = .next m' ∧ image.HasChunk chunk ∧ m.frame.code = chunk.code ∧
      m'.frame.code = chunk.code ∧ m'.frame.ip = target ∧
      ((∃ i, chunk.code[target]? = some i ∧
          m'.frame.fetch = .ok (i, { m'.frame with ip := target + 1 })) ∨
        (target = chunk.code.size ∧ m'.step image = .fault (.code (.pastEnd target)) m'.console)) := by
  obtain ⟨⟨chunk, hchunk, hf⟩, _⟩ :=
    (Machine.run_secure h (Machine.start_secure console) bound).1 m hrun
  obtain ⟨stack, hstep⟩ := Machine.step_takesJump hjump
  refine ⟨_, chunk, hstep, hchunk, hf.code, hf.code, rfl, ?_⟩
  rcases Nat.lt_or_eq_of_le (Machine.target_le h hchunk hf.code hjump) with hlt | rfl
  · refine .inl ⟨chunk.code[target], Array.getElem?_eq_getElem hlt, ?_⟩
    simp only [Frame.fetch, hf.code, Array.getElem?_eq_getElem hlt]
  · refine .inr ⟨rfl, Machine.step_pastEnd ?_⟩
    rw [hf.code]
    exact Array.getElem?_eq_none (Nat.le_refl _)

/-- An image with one construct and nothing but a chunk to start with. -/
def Image.ofCode (code : Array Instr) : Image where
  magic := formatMagic
  version := formatVersion
  constructs := #[⟨"any", none, 0, .empty⟩]
  main := 0
  constants := .empty
  members := #[]
  entry := ⟨code, 0, 0⟩

/-- An image that jumps over an instruction. -/
def skipping : Image := .ofCode #[.pushFalse, .jumpIfFalse 3, .pushTrue, .pushNull]

/-- The jump is taken in the second step and lands on the last instruction. -/
theorem skipping_jump_lands : ∃ m m' chunk, skipping.validate = .ok () ∧
    skipping.run 1 (.ofText "") = .unfinished m ∧ m.TakesJump 3 ∧ m.step skipping = .next m' ∧
    skipping.HasChunk chunk ∧ m.frame.code = chunk.code ∧ m'.frame.code = chunk.code ∧
    m'.frame.ip = 3 ∧
    ((∃ i, chunk.code[3]? = some i ∧ m'.frame.fetch = .ok (i, { m'.frame with ip := 4 })) ∨
      (3 = chunk.code.size ∧ m'.step skipping = .fault (.code (.pastEnd 3)) m'.console)) := by
  have hvalid : skipping.validate = .ok () := by decide
  have hrun : skipping.run 1 (.ofText "") = .unfinished { Machine.start skipping (.ofText "") with
      frame := ⟨skipping.entry.code, 1, [.boolean false], #[]⟩ } := rfl
  have hjump : Machine.TakesJump { Machine.start skipping (.ofText "") with
      frame := ⟨skipping.entry.code, 1, [.boolean false], #[]⟩ } 3 := .inr ⟨rfl, rfl⟩
  obtain ⟨m', chunk, hlands⟩ := Image.jump_lands hvalid hrun hjump
  exact ⟨_, m', chunk, hvalid, hrun, hjump, hlands⟩

/-- An image whose only instruction jumps behind itself. -/
def overshooting : Image := .ofCode #[.jump 1]

/-- The image is valid, and yet the fetch behind its jump fails. -/
theorem overshooting_fetch : ∃ m m', overshooting.validate = .ok () ∧
    overshooting.run 0 (.ofText "") = .unfinished m ∧ m.TakesJump 1 ∧
    m.step overshooting = .next m' ∧ m'.frame.code[m'.frame.ip]? = none ∧
    m'.frame.fetch.toOption = none := by
  have hvalid : overshooting.validate = .ok () := by decide
  exact ⟨_, _, hvalid, rfl, .inl rfl, rfl, rfl, rfl⟩

end ClassLang
