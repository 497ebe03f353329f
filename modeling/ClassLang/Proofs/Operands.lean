import ClassLang.Proofs.StackShape

/-!
# Operands with a shape

The shapes of `Image.shape?` say what the operands of a running frame are: where the shape has the receiver,
there is the receiver of the frame, and what the shape calls a new object is none that was on the heap before
(`Operands`). One step keeps this (`Machine.step_goes`). It also tells which object a call builds, if it
builds one: the receiver of the frame, where the shape has it, or else an object that is new.
-/

namespace ClassLang

/-- The receiver of the member that a frame executes. -/
def Frame.receiver (f : Frame) : Value := f.locals[0]?.getD .null

/-- The operands of a frame with a receiver are what a shape tells, from the top. An object that was just
made is another one than that at `address`. -/
inductive Operands (receiver : Value) (address : Nat) : List Slot → List Value → Prop
  | nil : Operands receiver address [] []
  | plain {σ : List Slot} {ws : List Value} {w : Value} :
      Operands receiver address σ ws → Operands receiver address (.plain :: σ) (w :: ws)
  | receiver {σ : List Slot} {ws : List Value} :
      Operands receiver address σ ws → Operands receiver address (.receiver :: σ) (receiver :: ws)
  | made {σ : List Slot} {ws : List Value} {w : Value} {k : Nat} :
      w ≠ .object address → Operands receiver address σ ws →
      Operands receiver address (.made k :: σ) (w :: ws)
  | again {σ : List Slot} {ws : List Value} {w : Value} {k : Nat} :
      Operands receiver address (.made k :: σ) (w :: ws) →
      Operands receiver address (.again :: .made k :: σ) (w :: w :: ws)

/-- The operands above those in `below` are what a shape tells. -/
def Frame.Shaped (f : Frame) (address : Nat) (σ : List Slot) (below : List Value) : Prop :=
  ∃ ws, f.stack = ws ++ below ∧ Operands f.receiver address σ ws

namespace Operands

variable {receiver : Value} {address : Nat} {σ : List Slot} {ws : List Value}

theorem length_eq (h : Operands receiver address σ ws) : ws.length = σ.length := by
  induction h with
  | nil => rfl
  | plain _ ih | receiver _ ih | made _ _ ih | again _ ih => simpa using ih

theorem drop (h : Operands receiver address σ ws) (n : Nat) :
    Operands receiver address (σ.drop n) (ws.drop n) := by
  induction h generalizing n with
  | nil => simpa using .nil
  | plain h ih =>
    cases n with
    | zero => exact .plain h
    | succ n => exact ih n
  | receiver h ih =>
    cases n with
    | zero => exact .receiver h
    | succ n => exact ih n
  | made hne h ih =>
    cases n with
    | zero => exact .made hne h
    | succ n => exact ih n
  | again h ih =>
    cases n with
    | zero => exact .again h
    | succ n => exact ih n

theorem plains (h : Operands receiver address σ ws) (vs : List Value) :
    Operands receiver address (List.replicate vs.length .plain ++ σ) (vs ++ ws) := by
  induction vs with
  | nil => exact h
  | cons v vs ih => exact .plain ih

end Operands

namespace Frame

variable {f f' : Frame} {address n : Nat} {σ : List Slot} {below : List Value}

/-- Some operands are taken from a frame, and plain ones put in their place. -/
theorem Shaped.took (h : f.Shaped address σ below) (hn : n ≤ σ.length) (vs : List Value)
    (hreceiver : f'.receiver = f.receiver) (hstack : f'.stack = vs ++ f.stack.drop n) :
    f'.Shaped address (List.replicate vs.length .plain ++ σ.drop n) below := by
  obtain ⟨ws, hws, hoperands⟩ := h
  refine ⟨vs ++ ws.drop n, ?_, hreceiver ▸ (hoperands.drop n).plains vs⟩
  rw [hstack, hws, List.drop_append_of_le_length (hoperands.length_eq ▸ hn), List.append_assoc]

/-- The top of a frame with operands. -/
theorem Shaped.top {s : Slot} (h : f.Shaped address (s :: σ) below) :
    ∃ w rest, f.stack = w :: rest ∧ (s = .receiver → w = f.receiver) := by
  obtain ⟨ws, hws, hoperands⟩ := h
  cases hoperands with
  | receiver => exact ⟨_, _, hws, fun _ => rfl⟩
  | plain | made | again => exact ⟨_, _, hws, nofun⟩

end Frame

/-! ## Calls -/

/-- What a call starts: the chunk, the arguments, and the slot of the caller that the result goes to. The
instruction runs with operands of the shape `σ`. -/
inductive Image.Starts (image : Image) (own : Bool) (address : Nat) (f : Frame) (σ : List Slot)
    (i : Instr) : Slot → Chunk → List Value → Prop
  /-- The field initializer of a new object. -/
  | made {k member owner : Nat} {chunk : Chunk} {w : Value} :
      i = .new k → image.memberId? .initializer = some member →
      image.resolve? k member = some (owner, .compiled chunk) → w ≠ .object address →
      Starts image own address f σ i (.made k) chunk [w]
  /-- A member that builds an object, which is the receiver of the caller only if that is what lies in
  front of the arguments. -/
  | built {c member owner n : Nat} {chunk : Chunk} {args : List Value} {w : Value} :
      i = .invoke c member → image.builds i = true →
      image.resolve? c member = some (owner, .compiled chunk) → image.pops? i = some (n + 1) →
      args.head? = some w →
      (σ[n]? = some .receiver ∧ own = true ∧ w = f.receiver) ∨
        (σ[n]? ≠ some .receiver ∧ w ≠ .object address) →
      Starts image own address f σ i .plain chunk args
  /-- A method. -/
  | called {c member owner : Nat} {chunk : Chunk} {args : List Value} :
      (∀ k, i ≠ .new k) → image.builds i = false → i.member? = some member →
      image.resolve? c member = some (owner, .compiled chunk) →
      Starts image own address f σ i .plain chunk args

/-- What the instruction `i` makes of a machine whose operands have the shape `σ`. Behind the instruction
they have the shape `σ'`, with the result of a call on top, once that is there. -/
inductive Machine.Goes (image : Image) (own : Bool) (address : Nat) (σ σ' : List Slot)
    (below : List Value) (m : Machine) (i : Instr) : Machine → Prop
  | within {f : Frame} {heap : Heap} {console : Console} :
      f.code = m.frame.code → f.ip ∈ i.successors m.frame.ip → f.receiver = m.frame.receiver →
      f.Shaped address σ' below →
      (∀ c member, i = .invoke c member → image.builds i = true →
        ∃ owner native n, image.resolve? c member = some (owner, .native native n)) →
      Goes image own address σ σ' below m i ⟨f, m.callers, heap, console⟩
  | enters {f : Frame} {s : Slot} {σ₁ : List Slot} {chunk : Chunk} {args : List Value} {heap : Heap} :
      f.code = m.frame.code → f.ip ∈ i.successors m.frame.ip → f.ip = m.frame.ip + 1 →
      f.receiver = m.frame.receiver → σ' = s :: σ₁ → f.Shaped address σ₁ below →
      image.Starts own address m.frame σ i s chunk args →
      Goes image own address σ σ' below m i ⟨.start chunk args, f :: m.callers, heap, m.console⟩
  | leaves {caller : Frame} {callers : List Frame} {w : Value} {rest : List Value} :
      i = .return → m.callers = caller :: callers → m.frame.stack = w :: rest →
      Goes image own address σ σ' below m i ⟨caller.push w, callers, m.heap, m.console⟩

/-- The number of the field initializers. The only native one returns its receiver. -/
def Image.Initializes (image : Image) (member : Nat) : Prop :=
  image.memberId? .initializer = some member ∧
    ∀ k owner native n, image.resolve? k member = some (owner, .native native n) → native = .anyInit

namespace Machine

variable {image : Image} {own : Bool} {address : Nat} {σ σ' : List Slot} {below : List Value}
  {m m' : Machine} {i : Instr}

/-- A call of a construct's own member: a native leaves its result, a chunk gets a frame. -/
theorem invoke_step {c member : Nat} (hi : m.frame.code[m.frame.ip]? = some (.invoke c member))
    (h : m.step image = .next m') : ∃ owner body, image.resolve? c member = some (owner, body) ∧
      body.arguments ≤ m.frame.depth ∧
      ((∃ native n w console, body = .native native n ∧
        m' = ⟨{ m.frame with ip := m.frame.ip + 1, stack := w :: m.frame.stack.drop body.arguments },
          m.callers, m.heap, console⟩) ∨
      ∃ chunk, body = .compiled chunk ∧
        m' = ⟨.start chunk (m.frame.stack.take body.arguments).reverse,
          { m.frame with ip := m.frame.ip + 1, stack := m.frame.stack.drop body.arguments } :: m.callers,
          m.heap, m.console⟩) := by
  unfold step Frame.fetch at h
  rw [hi] at h
  simp only [execute] at h
  cases ht : staticTarget image { m.frame with ip := m.frame.ip + 1 } c member with
  | error e =>
    rw [ht] at h
    cases h
  | ok target =>
    obtain ⟨body, args, f⟩ := target
    rw [ht] at h
    obtain ⟨owner, hbody, htook, rfl⟩ := staticTarget_took ht
    obtain rfl : f = { m.frame with ip := m.frame.ip + 1, stack := m.frame.stack.drop body.arguments } := by
      obtain ⟨hcode, hip, hlocals, _, hstack⟩ := htook
      cases f
      simp_all
    refine ⟨owner, body, hbody, htook.enough, ?_⟩
    cases body with
    | native native n =>
      simp only [callTarget, call] at h
      split at h
      · next w console _ =>
        cases h
        exact .inl ⟨native, n, w, console, rfl, rfl⟩
      · cases h
    | compiled chunk =>
      cases h
      exact .inr ⟨chunk, rfl, rfl⟩

/-- A new object is put behind those of the heap, and its field initializer is called. -/
theorem new_step {k member : Nat} (hinit : image.Initializes member)
    (hi : m.frame.code[m.frame.ip]? = some (.new k)) (h : m.step image = .next m') :
    ∃ heap owner body, image.resolve? k member = some (owner, body) ∧
      heap.objects.size = m.heap.objects.size + 1 ∧
      ((∃ native n console, body = .native native n ∧
        m' = ⟨Frame.push { m.frame with ip := m.frame.ip + 1 } (.object m.heap.objects.size), m.callers,
          heap, console⟩) ∨
      ∃ chunk, body = .compiled chunk ∧
        m' = ⟨.start chunk [.object m.heap.objects.size], { m.frame with ip := m.frame.ip + 1 } :: m.callers,
          heap, m.console⟩) := by
  unfold step Frame.fetch at h
  rw [hi] at h
  simp only [execute, new, hinit.1] at h
  split at h
  · cases h
  · next con _ =>
    split at h
    · next owner body hbody =>
      refine ⟨(m.heap.allocate k con.fieldCount).2, owner, body, resolve_ok.mp hbody, Array.size_push _, ?_⟩
      cases body with
      | native native n =>
        obtain rfl := hinit.2 _ _ _ _ (resolve_ok.mp hbody)
        cases h
        exact .inl ⟨_, _, _, rfl, rfl⟩
      | compiled chunk =>
        cases h
        exact .inr ⟨chunk, rfl, rfl⟩
    · cases h

/-! ## Steps -/

/-- An instruction that takes ordinary values and builds no object. -/
theorem plain_goes (hi : m.frame.code[m.frame.ip]? = some i) (hnew : ∀ k, i ≠ .new k)
    (hstore : i ≠ .store 0) (hbuilds : image.builds i = false)
    (heffect : image.plainEffect? i σ = some σ') (hshape : m.frame.Shaped address σ below)
    (h : m.step image = .next m') : m.Goes image own address σ σ' below i m' := by
  obtain ⟨n, hn, heffect⟩ := Option.bind_eq_some_iff.mp heffect
  split at heffect
  · next hle =>
    cases heffect
    obtain ⟨i', hi', hmoves⟩ := step_moves h
    obtain rfl : i = i' := Option.some.inj (hi.symm.trans hi')
    have hshaped {due : Nat} {f : Frame} (hpasses : m.frame.Passes image i due f) :
        f.receiver = m.frame.receiver ∧ ∃ vs : List Value, vs.length + due = i.pushes ∧
          f.Shaped address (List.replicate vs.length .plain ++ σ.drop n) below := by
      obtain ⟨n', vs, hn', _, hstack, hpushed⟩ := hpasses.operands
      obtain rfl : n = n' := Option.some.inj (hn.symm.trans hn')
      have hreceiver : f.receiver = m.frame.receiver := by
        rw [Frame.receiver, hpasses.slots 0 hstore, Frame.receiver]
      exact ⟨hreceiver, vs, hpushed, hshape.took hle.1 vs hreceiver hstack⟩
    cases hmoves with
    | within hpasses _ =>
      obtain ⟨hreceiver, vs, hpushed, hshape'⟩ := hshaped hpasses
      rw [Nat.add_zero] at hpushed
      refine .within hpasses.code hpasses.next hreceiver (hpushed ▸ hshape') fun c member _ hyes => ?_
      rw [hbuilds] at hyes
      cases hyes
    | @enters f chunk args heap c member owner hpasses hcallee hbody _ =>
      obtain ⟨hreceiver, vs, hpushed, hshape'⟩ := hshaped hpasses
      have hmember : i.member? = some member := by
        cases i with
        | new k => exact absurd rfl (hnew k)
        | _ => exact hcallee
      -- An instruction that calls a member leaves one operand, the result that is due.
      have hone : i.pushes = 1 ∧ i.successors m.frame.ip = [m.frame.ip + 1] := by
        cases i with
        | invoke | callVirtual | virtualOrAny => exact ⟨rfl, rfl⟩
        | _ => cases hmember
      obtain rfl : vs = [] := List.length_eq_zero_iff.mp (by omega)
      refine .enters hpasses.code hpasses.next ?_ hreceiver ?_ hshape' (.called hnew hbuilds hmember hbody)
      · have hnext := hpasses.next
        rw [hone.2] at hnext
        exact List.mem_singleton.mp hnext
      · rw [hone.1]
        rfl
    | leaves hreturn hcallers hstack => exact .leaves hreturn hcallers hstack
  · cases heffect

/-- The receiver of a call that builds an object lies behind the arguments. It is the receiver of the frame
if the shape has it there, and another object than that at `address` otherwise. -/
theorem built_receiver {receiver : Value} {ws : List Value} {c member : Nat}
    (hoperands : Operands receiver address σ ws) (heffect : image.buildEffect? own c member σ = some σ') :
    ∃ n w rest σ₁, image.pops? (.invoke c member) = some (n + 1) ∧ ws.drop n = w :: rest ∧
      σ' = .plain :: σ₁ ∧ Operands receiver address σ₁ rest ∧
      ((σ[n]? = some .receiver ∧ own = true ∧ w = receiver) ∨
        (σ[n]? ≠ some .receiver ∧ w ≠ .object address)) := by
  obtain ⟨n, hn, heffect⟩ := Option.bind_eq_some_iff.mp heffect
  split at heffect
  · next hpos =>
    obtain ⟨n, rfl⟩ := Nat.exists_eq_add_of_lt hpos.1
    rw [Nat.zero_add] at hn heffect
    rw [Nat.add_sub_cancel] at heffect
    have hdrop := hoperands.drop n
    refine ⟨n, ?_⟩
    rw [hn, ← List.head?_drop]
    generalize ws.drop n = rest at hdrop
    split at heffect
    · next heq =>
      split at heffect
      · next hown =>
        cases heffect
        rw [heq] at hdrop ⊢
        cases hdrop with
        | receiver hrest => exact ⟨_, _, _, rfl, rfl, rfl, hrest, .inl ⟨rfl, hown, rfl⟩⟩
      · cases heffect
    · next heq _ =>
      split at heffect
      · cases heffect
        rw [heq] at hdrop ⊢
        cases hdrop with
        | again hrest =>
          cases hrest with
          | made hne hrest => exact ⟨_, _, _, rfl, rfl, rfl, .plain hrest, .inr ⟨nofun, hne⟩⟩
      · cases heffect
    · next heq _ =>
      split at heffect
      · cases heffect
        rw [heq] at hdrop ⊢
        cases hdrop with
        | made hne hrest => exact ⟨_, _, _, rfl, rfl, rfl, hrest, .inr ⟨nofun, hne⟩⟩
      · cases heffect
    · cases heffect
  · cases heffect

/-- A call that builds an object. -/
theorem build_goes {c member : Nat} (hi : m.frame.code[m.frame.ip]? = some (.invoke c member))
    (hbuilds : image.builds (.invoke c member) = true)
    (heffect : image.buildEffect? own c member σ = some σ') (hshape : m.frame.Shaped address σ below)
    (h : m.step image = .next m') : m.Goes image own address σ σ' below (.invoke c member) m' := by
  obtain ⟨ws, hws, hoperands⟩ := hshape
  obtain ⟨n, w, rest, σ₁, hn, hdrop, rfl, hrest, hobject⟩ := built_receiver hoperands heffect
  have hlt : n < ws.length := by
    by_contra hge
    rw [List.drop_eq_nil_of_le (Nat.le_of_not_lt hge)] at hdrop
    cases hdrop
  have hbelow : m.frame.stack.drop (n + 1) = rest ++ below := by
    rw [hws, List.drop_append_of_le_length hlt, ← List.tail_drop, hdrop, List.tail_cons]
  have hhead : (m.frame.stack.take (n + 1)).reverse.head? = some w := by
    have hget : ws[n]? = some w := by rw [← List.head?_drop, hdrop, List.head?_cons]
    rw [List.head?_reverse, hws, List.take_append_of_le_length hlt, List.getLast?_take,
      if_neg (Nat.succ_ne_zero n), Nat.succ_sub_one, hget, Option.some_or]
  obtain ⟨owner, body, hbody, _, hstep⟩ := invoke_step hi h
  have hargs : body.arguments = n + 1 := by simpa [Image.pops?, hbody] using hn
  rw [hargs, hbelow] at hstep
  rcases hstep with ⟨native, k, v, console, rfl, rfl⟩ | ⟨chunk, rfl, rfl⟩
  · refine .within rfl List.mem_cons_self rfl ⟨v :: rest, rfl, .plain hrest⟩ fun c' member' heq _ => ?_
    cases heq
    exact ⟨owner, native, k, hbody⟩
  · exact .enters rfl List.mem_cons_self rfl rfl rfl ⟨rest, rfl, hrest⟩
      (.built rfl hbuilds hbody hn hhead hobject)

/-- One step of a machine whose operands have a shape. -/
theorem step_goes {member : Nat} (hinit : image.Initializes member)
    (hi : m.frame.code[m.frame.ip]? = some i) (heffect : image.effect? own i σ = some σ')
    (hshape : m.frame.Shaped address σ below) (hheap : address < m.heap.objects.size)
    (h : m.step image = .next m') : m.Goes image own address σ σ' below i m' := by
  unfold Image.effect? at heffect
  split at heffect
  · cases heffect
    have hne : Value.object m.heap.objects.size ≠ .object address := fun heq => by
      cases heq
      exact Nat.lt_irrefl _ hheap
    obtain ⟨ws, hws, hoperands⟩ := hshape
    obtain ⟨heap, owner, body, hbody, _, hstep⟩ := new_step hinit hi h
    rcases hstep with ⟨native, n, console, rfl, rfl⟩ | ⟨chunk, rfl, rfl⟩
    · exact .within rfl List.mem_cons_self rfl
        ⟨.object m.heap.objects.size :: ws, congrArg (_ :: ·) hws, .made hne hoperands⟩ fun _ _ heq => by cases heq
    · exact .enters rfl List.mem_cons_self rfl rfl rfl ⟨ws, hws, hoperands⟩
        (.made rfl hinit.1 hbody hne)
  · cases heffect
    obtain ⟨ws, hws, hoperands⟩ := hshape
    unfold step Frame.fetch at h
    rw [hi] at h
    simp only [execute, Frame.load] at h
    split at h
    · next w hw =>
      cases h
      have hreceiver : m.frame.receiver = w := by rw [Frame.receiver, hw, Option.getD_some]
      refine .within rfl List.mem_cons_self rfl ⟨w :: ws, congrArg (_ :: ·) hws, ?_⟩
        fun _ _ heq => by cases heq
      subst hreceiver
      exact .receiver hoperands
    · cases h
  · cases heffect
  · cases heffect
    obtain ⟨ws, hws, hoperands⟩ := hshape
    have hdup := hoperands
    cases hoperands with
    | @made _ ws w =>
      unfold step Frame.fetch at h
      rw [hi] at h
      simp only [execute, Frame.peek, Frame.peekAt, hws, List.cons_append, List.getElem?_cons_zero] at h
      cases h
      exact .within rfl List.mem_cons_self rfl ⟨w :: w :: ws, by simp [Frame.push], .again hdup⟩
        fun _ _ heq => by cases heq
  · split at heffect
    · next hbuilds => exact build_goes hi hbuilds heffect hshape h
    · next hbuilds =>
      exact plain_goes hi (fun _ heq => by cases heq) (fun heq => by cases heq) (by simpa using hbuilds)
        heffect hshape h
  · next hnew hload hstore hdup hinvoke =>
    split at heffect
    · cases heffect
    · next hbuilds =>
      exact plain_goes hi (fun k hk => hnew k hk) hstore (by simpa using hbuilds) heffect hshape h

end Machine

end ClassLang
