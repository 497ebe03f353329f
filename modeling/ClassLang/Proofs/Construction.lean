import ClassLang.Proofs.BuildFrames
import ClassLang.Proofs.HeapTyping
import ClassLang.Proofs.Occurrences

/-!
# How objects are constructed

The evaluation of an expression that makes an object goes through stages: the field initializers run on the
new object, the arguments are evaluated, and the constructor runs (`Analysis.Building`). At each stage it is
known what is still to be done for the object, and each step logs what it takes off that list
(`Analysis.Building.step`). So when the evaluation is done, all has been done in the order that the classes
tell (`Lower.construction_in_order`).
-/

namespace ClassLang

/-! ## Stages -/

/-- The code of an expression that makes an object of a class, at an index. `is` is that of the arguments. -/
structure Analysis.NewCode (a : Analysis) (image : Image) (id : Nat) (code : Array Instr)
    (index member : Nat) (is : List Instr) : Prop where
  code : CodeAt code index
    ([.new (TypeId.index id), .dup] ++ is ++ [.invoke (TypeId.index id) member, .pop])
  key : image.members[member]? = some .constructor
  constructor : ∃ meth, a.classes.constructor? id = some meth
  straight : ∀ i ∈ is, i.Straight
  arguments : ∃ vs, image.pass? false is [] = some vs ∧
    image.pops? (.invoke (TypeId.index id) member) = some (vs.length + 1)

/-- A frame stands in front of an instruction, with a stack. -/
structure Frame.At (f : Frame) (code : Array Instr) (ip : Nat) (stack : List Value) : Prop where
  code : f.code = code
  ip : f.ip = ip
  stack : f.stack = stack

/-- A frame evaluates the arguments of the object that it makes, which lies on the stack twice. It has come
so far that the operands above have a shape. -/
structure Frame.Argues (f : Frame) (image : Image) (address : Nat) (code : Array Instr) (index : Nat)
    (is : List Instr) (stack : List Value) (awaited : List Slot) : Prop where
  code : f.code = code
  ip : index + 2 ≤ f.ip ∧ f.ip ≤ index + 2 + is.length
  shaped : ∃ σ, image.pass? false (is.take (f.ip - (index + 2))) [] = some (awaited ++ σ) ∧
    f.Shaped address σ (.object address :: .object address :: stack)

/-- The stages of the evaluation of an expression that makes the object at an address. `stack` and `base` are
the operands and the callers that the evaluation leaves alone, and the last argument is what is still to be
done for the object. -/
inductive Analysis.Building (a : Analysis) (image : Image) (id address : Nat) (code : Array Instr)
    (index : Nat) (is : List Instr) (stack : List Value) (base : List Frame) :
    Machine → List Role → List BuildEvent → Prop
  /-- The field initializers run. -/
  | initializing {m : Machine} {cls : Nat} {roles : List Role} {frames : List Frame} {f : Frame} :
      a.Tower image address (.initializer cls (.object address)) roles frames [] →
      m.frame :: m.callers = frames ++ f :: base → f.At code (index + 1) stack →
      Building a image id address code index is stack base m roles
        (a.pendings address roles frames ++ a.construction id)
  /-- The field initializers are done. -/
  | initialized {m : Machine} :
      m.callers = base → m.frame.At code (index + 1) (.object address :: stack) →
      Building a image id address code index is stack base m [] (a.construction id)
  /-- The arguments are evaluated. -/
  | arguing {m : Machine} :
      m.callers = base → m.frame.Argues image address code index is stack [] →
      Building a image id address code index is stack base m [] (a.construction id)
  /-- A member runs that an argument calls. It does nothing for the object. -/
  | waiting {m : Machine} {bottom : Role} {roles : List Role} {frames : List Frame} {f : Frame} {s : Slot} :
      a.Tower image address bottom roles frames [] → bottom.Answers address s →
      (∀ role ∈ roles, role.serves address = false) → m.frame :: m.callers = frames ++ f :: base →
      f.Argues image address code index is stack [s] →
      Building a image id address code index is stack base m roles (a.construction id)
  /-- The constructors run. -/
  | constructing {m : Machine} {cls : Nat} {roles : List Role} {frames : List Frame} {f : Frame} :
      a.Tower image address (.constructor cls (.object address)) roles frames [] →
      m.frame :: m.callers = frames ++ f :: base →
      f.At code (index + 3 + is.length) (.object address :: stack) →
      Building a image id address code index is stack base m roles (a.pendings address roles frames)
  /-- The constructors are done. -/
  | constructed {m : Machine} {w : Value} :
      m.callers = base → m.frame.At code (index + 3 + is.length) (w :: .object address :: stack) →
      Building a image id address code index is stack base m [] []
  /-- The object is there. -/
  | built {m : Machine} :
      m.callers = base → m.frame.At code (index + 4 + is.length) (.object address :: stack) →
      Building a image id address code index is stack base m [] []

section

variable {a : Analysis} {image : Image} {id address : Nat} {code : Array Instr} {index member : Nat}
  {is : List Instr} {stack : List Value} {base : List Frame} {m m' : Machine} {roles : List Role}
  {todo : List BuildEvent}

theorem Heap.Extends.lt_size {h h' : Heap} (hh : h.Extends h') (hlt : address < h.objects.size) :
    address < h'.objects.size := by
  obtain ⟨_, hobj, _⟩ := hh address _ (Array.getElem?_eq_getElem hlt)
  exact (Array.getElem?_eq_some_iff.mp hobj).1

/-- The machine behind an instruction that copies the top operand. -/
theorem dup_next {v : Value} {rest : List Value} (hi : m.frame.code[m.frame.ip]? = some .dup)
    (hstack : m.frame.stack = v :: rest) (h : m.step image = .next m') :
    m' = { m with frame := { m.frame with ip := m.frame.ip + 1, stack := v :: v :: rest } } := by
  obtain ⟨⟨c, ip, s, L⟩, callers, heap, console⟩ := m
  cases hstack
  exact (Outcome.next.inj ((step_dup hi).symm.trans h)).symm

/-- The machine behind an instruction that drops the top operand. -/
theorem pop_next {v : Value} {rest : List Value} (hi : m.frame.code[m.frame.ip]? = some .pop)
    (hstack : m.frame.stack = v :: rest) (h : m.step image = .next m') :
    m' = { m with frame := { m.frame with ip := m.frame.ip + 1, stack := rest } } := by
  obtain ⟨⟨c, ip, s, L⟩, callers, heap, console⟩ := m
  cases hstack
  exact (Outcome.next.inj ((step_pop hi).symm.trans h)).symm

/-- The object is copied, to be the receiver of the constructor and the value of the expression. -/
theorem Analysis.NewCode.copies (N : a.NewCode image id code index member is)
    (hcallers : m.callers = base) (hf : m.frame.At code (index + 1) (.object address :: stack))
    (h : m.step image = .next m') :
    a.Building image id address code index is stack base m' (m.rolesAfter image m' [])
      (a.construction id) := by
  have hi : m.frame.code[m.frame.ip]? = some .dup := by
    rw [hf.code, hf.ip]
    exact N.code.left.left.tail.head
  obtain rfl := dup_next hi hf.stack h
  have hip : m.frame.ip + 1 - (index + 2) = 0 := by
    rw [hf.ip]
    omega
  rw [Machine.rolesAfter_within]
  refine .arguing hcallers ⟨hf.code, ?_, [], ?_, [], rfl, .nil⟩
  · have := hf.ip
    dsimp only
    omega
  · rw [hip]
    rfl

/-- In front of the end of the arguments there is an instruction that goes on with their shape. -/
theorem Analysis.NewCode.argument (N : a.NewCode image id code index member is) {f : Frame}
    {awaited : List Slot} (hf : f.Argues image address code index is stack awaited)
    (hlt : f.ip < index + 2 + is.length) :
    ∃ i σ', f.code[f.ip]? = some i ∧ i.Straight ∧
      image.pass? false (is.take (f.ip + 1 - (index + 2))) [] = some σ' ∧
      ∀ σ, image.pass? false (is.take (f.ip - (index + 2))) [] = some σ →
        image.effect? false i σ = some σ' := by
  obtain ⟨k, hk⟩ := Nat.exists_eq_add_of_le hf.ip.1
  have hlt' : k < is.length := by omega
  have hget : f.code[f.ip]? = some is[k] := by
    have hcode := N.code.left.right
    rw [hf.code, hk]
    exact hcode k is[k] (List.getElem?_eq_getElem hlt')
  obtain ⟨vs, hpass, _⟩ := N.arguments
  rw [← List.take_append_drop (k + 1) is, Image.pass?_append, Option.bind_eq_some_iff] at hpass
  obtain ⟨σ', hσ', _⟩ := hpass
  have hfront : f.ip - (index + 2) = k := by omega
  have hnext : f.ip + 1 - (index + 2) = k + 1 := by omega
  refine ⟨is[k], σ', hget, N.straight _ (List.getElem_mem hlt'), hnext ▸ hσ', fun σ hσ => ?_⟩
  rw [hfront] at hσ
  rw [List.take_add_one, List.getElem?_eq_getElem hlt', Option.toList_some, Image.pass?_append, hσ,
    Option.bind_some, Image.pass?_cons] at hσ'
  obtain ⟨σ₁, heffect, hlast⟩ := Option.bind_eq_some_iff.mp hσ'
  cases hlast
  exact heffect

variable (W : WellTyped a) (A : Assembled a image)

include W A

/-- The first step makes the object and starts its field initializer. -/
theorem Analysis.NewCode.begins (N : a.NewCode image id code index member is)
    (hcallers : m.callers = base) (hf : m.frame.At code index stack) (h : m.step image = .next m') :
    a.Building image id m.heap.objects.size code index is stack base m' (m.rolesAfter image m' [])
      (a.initialization id ++ a.construction id) ∧ m.heap.objects.size < m'.heap.objects.size := by
  obtain ⟨number, hinit, hm⟩ := image_initializes W A
  obtain ⟨_, hctor⟩ := N.constructor
  have hi : m.frame.code[m.frame.ip]? = some (.new (TypeId.index id)) := by
    rw [hf.code, hf.ip]
    exact N.code.left.left.head
  have hat {f : Frame} {s : List Value} (hcode : f.code = m.frame.code) (hip : f.ip = m.frame.ip + 1)
      (hs : f.stack = s) : f.At code (index + 1) s :=
    ⟨hcode.trans hf.code, by rw [hip, hf.ip], hs⟩
  obtain ⟨heap, owner', body', hres', hsize, hstep⟩ := Machine.new_step hinit hi h
  have hlt := Nat.lt_of_lt_of_eq (Nat.lt_succ_self _) hsize.symm
  obtain ⟨owner, body, hres, ⟨hnil, _, _, rfl⟩ | ⟨cls, chunk, rfl, hstart⟩⟩ :=
    start_builds W A hctor rfl hm m.heap.objects.size
  · obtain ⟨rfl, rfl⟩ := Prod.mk.inj (Option.some.inj (hres.symm.trans hres'))
    rcases hstep with ⟨_, _, console, _, rfl⟩ | ⟨_, hcompiled, _⟩
    · rw [Machine.rolesAfter_within, show a.initialization id = [] from hnil]
      exact ⟨.initialized hcallers (hat rfl rfl (congrArg _ hf.stack)), hlt⟩
    · cases hcompiled
  · obtain ⟨rfl, rfl⟩ := Prod.mk.inj (Option.some.inj (hres.symm.trans hres'))
    rcases hstep with ⟨_, _, _, hnative, _⟩ | ⟨_, hcompiled, rfl⟩
    · cases hnative
    · cases hcompiled
      obtain ⟨hg, hscript, hrole⟩ := hstart [.object m.heap.objects.size] rfl
      rw [Machine.rolesAfter_enters, hi, Option.elim_some, hrole (.new _) rfl hinit.1,
        show a.initialization id = _ from hscript.symm, ← pendings_single]
      exact ⟨.initializing (.base hg) (congrArg (_ :: _ :: ·) hcallers) (hat rfl rfl hf.stack), hlt⟩

/-- An instruction of the arguments. -/
theorem Analysis.NewCode.argues (N : a.NewCode image id code index member is)
    (hcallers : m.callers = base) (hf : m.frame.Argues image address code index is stack [])
    (hlt : m.frame.ip < index + 2 + is.length) (hheap : address < m.heap.objects.size)
    (h : m.step image = .next m') :
    a.Building image id address code index is stack base m' (m.rolesAfter image m' [])
      (a.construction id) := by
  obtain ⟨_, hinit, _⟩ := image_initializes W A
  obtain ⟨i, σ', hi, hstraight, hσ', heffect⟩ := N.argument hf hlt
  obtain ⟨σ, hσ, hshape⟩ := hf.shaped
  have hargues {f : Frame} {awaited σ₁ : List Slot} (hcode : f.code = m.frame.code)
      (hip : f.ip ∈ i.successors m.frame.ip) (heq : σ' = awaited ++ σ₁)
      (hf' : f.Shaped address σ₁ (.object address :: .object address :: stack)) :
      f.Argues image address code index is stack awaited := by
    rw [hstraight, List.mem_singleton] at hip
    have := hf.ip
    exact ⟨hcode.trans hf.code, by omega, σ₁, by rw [hip, hσ', heq], hf'⟩
  cases Machine.step_goes hinit hi (heffect σ hσ) hshape hheap h with
  | within hcode hip _ hf' _ =>
    rw [Machine.rolesAfter_within]
    exact .arguing hcallers (hargues hcode hip rfl hf')
  | enters hcode hip _ _ heq hf' hstarts =>
    obtain ⟨role, hg, hanswers, hrole, hserves⟩ := hstarts.performs W A
    rw [Machine.rolesAfter_enters, hi, Option.elim_some, hrole]
    refine .waiting (.base hg) hanswers ?_ (congrArg (_ :: _ :: ·) hcallers) (hargues hcode hip heq hf')
    exact List.forall_mem_singleton.mpr (Bool.eq_false_iff.mpr fun hyes => nomatch (hserves hyes).1)
  | leaves hreturn _ _ =>
    subst hreturn
    cases hstraight 0

/-- The constructor is called. -/
theorem Analysis.NewCode.calls (N : a.NewCode image id code index member is)
    (hcallers : m.callers = base) (hf : m.frame.Argues image address code index is stack [])
    (hend : m.frame.ip = index + 2 + is.length) (h : m.step image = .next m') :
    a.Building image id address code index is stack base m' (m.rolesAfter image m' [])
      (a.construction id) := by
  obtain ⟨_, hctor⟩ := N.constructor
  have hi : m.frame.code[m.frame.ip]? = some (.invoke (TypeId.index id) member) := by
    have hcode := N.code.right.head
    rw [hf.code, hend]
    simpa [Nat.add_assoc, Nat.add_comm, Nat.add_left_comm] using hcode
  obtain ⟨vs, hpass, hpops⟩ := N.arguments
  -- The arguments lie on the stack above the two copies of the object.
  have hstack : ∃ ws, m.frame.stack = ws ++ .object address :: .object address :: stack ∧
      ws.length = vs.length := by
    obtain ⟨σ, hσ, ws, hws, hoperands⟩ := hf.shaped
    rw [hend, Nat.add_sub_cancel_left, List.take_length, hpass] at hσ
    obtain rfl := Option.some.inj hσ
    exact ⟨ws, hws, hoperands.length_eq⟩
  obtain ⟨ws, hstack, hlen⟩ := hstack
  obtain ⟨owner', body', hres', _, hstep⟩ := Machine.invoke_step hi h
  have hargs : body'.arguments = ws.length + 1 := by
    rw [hlen]
    simpa [Image.pops?, hres'] using hpops
  have hdrop : m.frame.stack.drop (ws.length + 1) = .object address :: stack := by
    rw [hstack, List.drop_append, List.drop_eq_nil_of_le (Nat.le_succ _)]
    simp
  have htake : (m.frame.stack.take (ws.length + 1)).reverse.head? = some (.object address) := by
    rw [hstack, List.take_append, List.take_of_length_le (Nat.le_succ _)]
    simp
  rw [hargs, hdrop] at hstep
  have hat {f : Frame} {s : List Value} (hcode : f.code = m.frame.code) (hip : f.ip = m.frame.ip + 1)
      (hs : f.stack = s) : f.At code (index + 3 + is.length) s :=
    ⟨hcode.trans hf.code, by omega, hs⟩
  obtain ⟨owner, body, hres, ⟨hnil, _, _, rfl⟩ | ⟨cls, chunk, rfl, hstart⟩⟩ :=
    start_builds W A hctor rfl N.key address
  · obtain ⟨rfl, rfl⟩ := Prod.mk.inj (Option.some.inj (hres.symm.trans hres'))
    rcases hstep with ⟨_, _, w, console, _, rfl⟩ | ⟨_, hcompiled, _⟩
    · rw [Machine.rolesAfter_within, show a.construction id = [] from hnil]
      exact .constructed hcallers (hat rfl rfl rfl)
    · cases hcompiled
  · obtain ⟨rfl, rfl⟩ := Prod.mk.inj (Option.some.inj (hres.symm.trans hres'))
    rcases hstep with ⟨_, _, _, _, hnative, _⟩ | ⟨_, hcompiled, rfl⟩
    · cases hnative
    · cases hcompiled
      obtain ⟨hg, hscript, hrole⟩ := hstart _ htake
      rw [Machine.rolesAfter_enters, hi, Option.elim_some, hrole _ rfl rfl,
        show a.construction id = _ from hscript.symm, ← pendings_single]
      exact .constructing (.base hg) (congrArg (_ :: _ :: ·) hcallers) (hat rfl rfl rfl)

/-- Each step logs what is no longer to be done, until the object is there. -/
theorem Analysis.Building.step (N : a.NewCode image id code index member is)
    (B : a.Building image id address code index is stack base m roles todo)
    (hheap : address < m.heap.objects.size)
    (hgoing : m.callers.length = base.length → m.frame.ip ≠ index + 4 + is.length)
    (h : m.step image = .next m') :
    ∃ todo', a.Building image id address code index is stack base m' (m.rolesAfter image m' roles) todo' ∧
      todo = a.log address m roles ++ todo' := by
  cases B with
  | initializing T hm hf =>
    rcases T.advances W A hm hheap h with ⟨_, hm', T', htodo, _⟩ | ⟨f, w, hlower, hframe, hroles, htodo, hw⟩
    · exact ⟨_, .initializing T' hm' hf, by rw [htodo, List.append_assoc]⟩
    · obtain ⟨rfl, rfl⟩ := List.cons.inj hlower
      obtain rfl := hw _ _ rfl
      rw [hroles, htodo]
      refine ⟨_, .initialized rfl ?_, rfl⟩
      rw [hframe]
      exact ⟨hf.code, hf.ip, congrArg _ hf.stack⟩
  | initialized hcallers hf => exact ⟨_, N.copies hcallers hf h, rfl⟩
  | arguing hcallers hf =>
    rcases Nat.lt_or_eq_of_le hf.ip.2 with hlt | hend
    · exact ⟨_, N.argues W A hcallers hf hlt hheap h, rfl⟩
    · exact ⟨_, N.calls W A hcallers hf hend h, rfl⟩
  | waiting T hanswers hsilent hm hf =>
    rw [log_nil hsilent]
    rcases T.advances W A hm hheap h with ⟨_, hm', T', _, hsilent'⟩ | ⟨f, w, hlower, hframe, hroles, _, hw⟩
    · exact ⟨_, .waiting T' hanswers (hsilent' hsilent) hm' hf, rfl⟩
    · obtain ⟨rfl, rfl⟩ := List.cons.inj hlower
      rw [hroles]
      obtain ⟨σ, hσ, hshape⟩ := hf.shaped
      refine ⟨_, .arguing rfl ?_, rfl⟩
      rw [hframe]
      exact ⟨hf.code, hf.ip, _, hσ, hanswers.filled hw hshape⟩
  | constructing T hm hf =>
    rcases T.advances W A hm hheap h with ⟨_, hm', T', htodo, _⟩ | ⟨f, w, hlower, hframe, hroles, htodo, _⟩
    · exact ⟨_, .constructing T' hm' hf, htodo⟩
    · obtain ⟨rfl, rfl⟩ := List.cons.inj hlower
      rw [hroles, htodo]
      refine ⟨_, .constructed (w := w) rfl ?_, (List.append_nil _).symm⟩
      rw [hframe]
      exact ⟨hf.code, hf.ip, congrArg _ hf.stack⟩
  | constructed hcallers hf =>
    have hi : m.frame.code[m.frame.ip]? = some .pop := by
      have hcode := N.code.right.tail.head
      rw [hf.code, hf.ip]
      simpa [Nat.add_assoc, Nat.add_comm, Nat.add_left_comm] using hcode
    obtain rfl := pop_next hi hf.stack h
    rw [Machine.rolesAfter_within]
    refine ⟨_, .built hcallers ⟨hf.code, ?_, rfl⟩, rfl⟩
    have := hf.ip
    dsimp only
    omega
  | built hcallers hf => exact absurd hf.ip (hgoing (congrArg _ hcallers))

/-- A run that has not come to the end of the evaluation is at a stage of it, and what it has logged is no
longer to be done. -/
theorem Analysis.Building.run (N : a.NewCode image id code index member is) {n : Nat}
    (B : a.Building image id address code index is stack base m roles todo)
    (hheap : address < m.heap.objects.size)
    (hgoing : ∀ j < n, ∀ m₁, m.run image j = .unfinished m₁ → m₁.callers.length = base.length →
      m₁.frame.ip ≠ index + 4 + is.length)
    (h : m.run image n = .unfinished m') :
    ∃ roles' todo', a.Building image id address code index is stack base m' roles' todo' ∧
      todo = a.trace image address n m roles ++ todo' := by
  induction n generalizing m roles todo with
  | zero =>
    cases h
    exact ⟨roles, todo, B, rfl⟩
  | succ n ih =>
    rw [Machine.run] at h
    split at h
    · next m₁ hstep =>
      obtain ⟨todo₁, B₁, rfl⟩ := B.step W A N hheap (hgoing 0 (Nat.succ_pos _) m rfl) hstep
      have hextends : (m.step image).Extends m.heap := Machine.step_extends
      rw [hstep] at hextends
      obtain ⟨roles', todo', B', rfl⟩ := ih B₁ (Heap.Extends.lt_size hextends hheap)
        (fun j hj m₂ hrun => hgoing (j + 1) (Nat.succ_lt_succ hj) m₂ (by rwa [Machine.run, hstep])) h
      exact ⟨roles', todo', B', by rw [Analysis.trace, hstep, List.append_assoc]⟩
    · cases h
    · cases h

/-- The code of an expression that makes an object stands where the expression does. -/
theorem Analysis.Standing.newCode {c : Ident} {es : List (Expr Typing)} {ν : Typing}
    (h : a.Standing image code index (.new c es ν)) (hfind : a.classes.find? c.name = some id) :
    ∃ member is, a.NewCode image id code index member is ∧ is.length = Expr.widths es := by
  obtain ⟨cls, ρ, env, _, _, hcls, henv, he, hc, hcode⟩ := h
  cases he with
  | new hfound hctor _ hlen hes hfit =>
    cases hc with
    | new hfound' hk hm hcs =>
      rw [henv.inside.classes] at hfound hctor hfit
      cases hfound.symm.trans hfind
      cases hfound'.symm.trans hfind
      obtain ⟨hne, rfl⟩ := TypeId.ne_unit_of_construct hk
      obtain ⟨r, hr, hmeth⟩ := Option.bind_eq_some_iff.mp hctor
      obtain ⟨body, hres, _, hargs⟩ := resolve_method W A (ClassTable.lt_of_record hr) hne hm (by simp)
        (ClassTable.lookupMethod_own hr hmeth)
      obtain ⟨vs, hvs, _, hpass⟩ := exprs_computes W A hcls henv es hlen hes hcs []
      rw [List.append_nil] at hpass
      refine ⟨_, _, ⟨hcode, hm, ⟨_, hctor⟩, straight_all hcs, vs, hpass, ?_⟩, lengths_eq hcs⟩
      simp [Image.pops?, hres, hargs, hvs, hlen, List.Forall₂.length_eq hfit]

omit W A in
theorem Analysis.Tower.ne_nil {bottom : Role} {frames : List Frame} {awaited : List Slot}
    (h : a.Tower image address bottom roles frames awaited) : frames ≠ [] := by
  cases h <;> exact List.cons_ne_nil _ _

omit W A in
/-- The frame that evaluates the expression lies on its callers. -/
theorem Machine.frameAt_below {f : Frame} {frames : List Frame}
    (h : m.frame :: m.callers = frames ++ f :: base) : m.frameAt? base.length = some f := by
  rw [Machine.frameAt?, h, List.reverse_append, List.reverse_cons, List.append_assoc,
    List.getElem?_append_right (by simp)]
  simp

omit W A in
theorem Machine.height_above {frames : List Frame} {f : Frame}
    (h : m.frame :: m.callers = frames ++ f :: base) (hne : frames ≠ []) :
    m.callers.length ≠ base.length := fun heq => by
  have hlen := congrArg List.length h
  have hpos := List.length_pos_iff.mpr hne
  simp only [List.length_cons, List.length_append] at hlen
  omega

omit W A in
/-- Where the evaluation ends, all has been done. -/
theorem Analysis.Building.finished
    (B : a.Building image id address code index is stack base m roles todo)
    (hheight : m.callers.length = base.length) (hip : m.frame.ip = index + 4 + is.length) :
    todo = [] ∧ m.callers = base ∧ m.frame.stack = .object address :: stack := by
  cases B with
  | built hcallers hf => exact ⟨rfl, hcallers, hf.stack⟩
  | initialized _ hf | constructed _ hf =>
    have := hf.ip
    omega
  | arguing _ hf =>
    have := hf.ip
    omega
  | initializing T hm _ | constructing T hm _ | waiting T _ _ hm _ =>
    exact absurd hheight (Machine.height_above hm T.ne_nil)

omit W A in
/-- While the arguments are evaluated, it is the constructors that are still to run. -/
theorem Analysis.Building.arguments
    (B : a.Building image id address code index is stack base m roles todo) {f : Frame}
    (hf : m.frameAt? base.length = some f) (hge : index + 2 ≤ f.ip) (hle : f.ip ≤ index + 2 + is.length) :
    todo = a.construction id := by
  have hbelow {frames : List Frame} {g : Frame} (h : m.frame :: m.callers = frames ++ g :: base) : g = f :=
    Option.some.inj ((Machine.frameAt_below h).symm.trans hf)
  have hself (h : m.callers = base) : m.frame = f :=
    hbelow (show m.frame :: m.callers = [] ++ m.frame :: base from congrArg (m.frame :: ·) h)
  cases B with
  | initializing _ hm hg | constructing _ hm hg =>
    obtain rfl := hbelow hm
    have := hg.ip
    omega
  | initialized hcallers hg | constructed hcallers hg | built hcallers hg =>
    obtain rfl := hself hcallers
    have := hg.ip
    omega
  | arguing | waiting => rfl

end

/-! ## Whole evaluations -/

/-- An evaluation by the frame at work, whose code ends in front of an index, is done after a number of
steps: the frame is at work again, and it has come to the index for the first time. -/
structure Machine.Completes (image : Image) (m : Machine) (stop n : Nat) (m' : Machine) : Prop where
  run : m.run image n = .unfinished m'
  height : m'.callers.length = m.callers.length
  ip : m'.frame.ip = stop
  first : ∀ j < n, ∀ m₁, m.run image j = .unfinished m₁ → m₁.callers.length = m.callers.length →
    m₁.frame.ip ≠ stop

/-- The evaluation of an expression that makes an object, when it completes, leaves the new object on the
stack. What has been done for the object until then are the events that the classes tell, in their order, and
none of them twice: each field with an initial value gets it, those of the ancestors first; the constructors
are entered from the class upwards, each calls that of its parent when its base arguments are there, and their
bodies run from the topmost class downwards. Whenever the arguments are evaluated, all fields have got
their initial values, and no constructor has been entered. -/
theorem Lower.construction_in_order {p : Program Span} {a : Analysis} {image : Image}
    (hcheck : Check.program p = .ok a) (hlower : Lower.image a = .ok image) {chunk : Chunk} {index id n : Nat}
    {c : Ident} {es : List (Expr Typing)} {ν : Typing} {m m' : Machine}
    (hat : a.ExpressionAt image chunk index (.new c es ν)) (hfind : a.classes.find? c.name = some id)
    (hcode : m.frame.code = chunk.code) (hip : m.frame.ip = index)
    (hdone : m.Completes image (index + (Expr.new c es ν).width) n m') :
    m'.callers = m.callers ∧ m'.frame.stack = .object m.heap.objects.size :: m.frame.stack ∧
      a.trace image m.heap.objects.size n m [] = a.initialization id ++ a.construction id ∧
      (a.initialization id ++ a.construction id).Nodup ∧
      ∀ j ≤ n, ∀ m₁ f, m.run image j = .unfinished m₁ → m₁.frameAt? m.callers.length = some f →
        index + 2 ≤ f.ip → f.ip ≤ index + 2 + Expr.widths es →
        a.trace image m.heap.objects.size j m [] = a.initialization id := by
  have W := Check.program_wellTyped hcheck
  have A := Lower.image_assembled hlower
  obtain ⟨member, is, N, hlen⟩ := (hat.standing W A).newCode W A hfind
  obtain ⟨_, hctor⟩ := N.constructor
  obtain ⟨_, hr, _⟩ := Option.bind_eq_some_iff.mp hctor
  have hstop : index + (Expr.new c es ν).width = index + 4 + is.length := by
    rw [Expr.width, hlen]
    omega
  rw [hstop] at hdone
  -- Behind the first step the evaluation is at one of its stages.
  have hstages : ∀ j ≤ n, ∀ m₁, m.run image j = .unfinished m₁ → j = 0 ∧ m₁ = m ∨
      ∃ roles todo, a.Building image id m.heap.objects.size chunk.code index is m.frame.stack m.callers m₁
        roles todo ∧
      a.initialization id ++ a.construction id = a.trace image m.heap.objects.size j m [] ++ todo := by
    intro j hj m₁ hrun
    cases j with
    | zero =>
      cases hrun
      exact .inl ⟨rfl, rfl⟩
    | succ j =>
      rw [Machine.run] at hrun
      split at hrun
      · next m₂ hstep =>
        obtain ⟨B, hlt⟩ := N.begins W A rfl ⟨hcode, hip, rfl⟩ hstep
        obtain ⟨roles, todo, B', htodo⟩ := B.run W A N hlt (fun i hi m₃ hrun' =>
          hdone.first (i + 1) (by omega) m₃ (by rwa [Machine.run, hstep])) hrun
        refine .inr ⟨roles, todo, B', ?_⟩
        rw [htodo, Analysis.trace, hstep]
        rfl
      · cases hrun
      · cases hrun
  rcases hstages n (Nat.le_refl _) m' hdone.run with ⟨rfl, rfl⟩ | ⟨roles, todo, B, htodo⟩
  · have := hdone.ip
    omega
  · obtain ⟨rfl, hcallers, hstack⟩ := B.finished hdone.height hdone.ip
    rw [List.append_nil] at htodo
    refine ⟨hcallers, hstack, htodo.symm, W.building_nodup (ClassTable.lt_of_record hr), ?_⟩
    intro j hj m₁ f hrun hf hge hle
    rcases hstages j hj m₁ hrun with ⟨rfl, rfl⟩ | ⟨roles₁, todo₁, B₁, htodo₁⟩
    · have hself : m₁.frameAt? m₁.callers.length = some m₁.frame :=
        Machine.frameAt_below (show m₁.frame :: m₁.callers = [] ++ m₁.frame :: m₁.callers from rfl)
      obtain rfl := Option.some.inj (hself.symm.trans hf)
      omega
    · rw [B₁.arguments hf hge (by omega)] at htodo₁
      exact (List.append_cancel_right htodo₁).symm

/-- The machine that a run has come to. -/
def RunResult.machine? : RunResult → Option Machine
  | .unfinished m => some m
  | _ => none

theorem RunResult.machine?_eq_some {r : RunResult} {m : Machine} :
    r.machine? = some m ↔ r = .unfinished m := by
  cases r <;> simp [machine?]

/-- The chunk of a body that was compiled. -/
def Body.chunk? : Body → Option Chunk
  | .compiled chunk => some chunk
  | .native _ _ => none

theorem Body.chunk?_eq_some {body : Body} {chunk : Chunk} :
    body.chunk? = some chunk ↔ body = .compiled chunk := by
  cases body <;> simp [chunk?]

/-- A class and its parent, both with an initial value for a field and with a constructor. -/
def growing : String :=
  "class Main\n\x7b\n public new()\n \x7b\n new Leaf(true)\n \x7d\n\x7d\n\n" ++
    "class Leaf : Branch\n\x7b\n public fresh: boolean = true\n\n" ++
    " public new(flag: boolean) : base(flag)\n \x7b\n this.fresh = flag\n \x7d\n\x7d\n\n" ++
    "class Branch\n\x7b\n public whole: boolean = true\n\n" ++
    " public new(flag: boolean)\n \x7b\n this.whole = flag\n \x7d\n\x7d\n"

/-- What is done for an object of the first of the two classes, which are the classes 1 and 2. -/
def growingEvents : List BuildEvent :=
  [.begins 2 "whole", .stores 2 "whole", .begins 1 "fresh", .stores 1 "fresh", .enters 1, .delegates 1,
    .enters 2, .delegates 2, .runs 2, .leaves 2, .runs 1, .leaves 1]

/-- The constructor of the entry class makes such an object within 42 steps. -/
theorem growing_constructs : ∃ p a image m m', Program.ofSource growing = .ok p ∧
    Check.program p = .ok a ∧ Lower.image a = .ok image ∧ image.run 10 (.ofText "") = .unfinished m ∧
    m.run image 42 = .unfinished m' ∧ m'.frame.stack = .object m.heap.objects.size :: m.frame.stack ∧
    a.trace image m.heap.objects.size 42 m [] = growingEvents := by
  have hrun : (Image.ofSource growing).toOption.bind (fun (image : Image) =>
      (Analysis.ofSource growing).toOption.bind fun (a : Analysis) =>
      a.program.classes[0]?.bind fun (d : ClassDecl Typing) =>
      d.constructors[0]?.bind fun (cd : ConstructorDecl Typing) =>
      (cd.body.expressions cd.baseWidth)[0]?.bind fun (e : Nat × Expr Typing) =>
      (match e.2 with | .new c es ν => some (c, es, ν) | _ => none).bind fun new =>
      (image.construct? 5).bind fun c => (c.bodies.find? 0).bind fun body => body.chunk?.bind fun chunk =>
      (image.run 10 (.ofText "")).machine?.bind fun m => (m.run image 42).machine?.bind fun m' =>
      some (decide (image.members[0]? = some MemberKey.constructor ∧ e.1 = 3 ∧ e.2.width = 5 ∧
        a.classes.find? new.1.name = some 7 ∧ m.frame.code = chunk.code ∧ m.frame.ip = 3 ∧
        m.callers.length = 1 ∧ m'.callers.length = 1 ∧ m'.frame.ip = 8 ∧
        (List.range 42).all (fun j => (m.run image j).machine?.all fun (m₁ : Machine) =>
          m₁.callers.length != m.callers.length || m₁.frame.ip != 8) ∧
        a.initialization 7 ++ a.construction 7 = growingEvents))) = some true := by decide +kernel
  simp only [↓Option.bind_eq_some_iff, Option.some.injEq, toOption_eq_some,
    RunResult.machine?_eq_some, Body.chunk?_eq_some, decide_eq_true_eq] at hrun
  obtain ⟨image, himage, a, ha, d, hd, cd, hcd, ⟨_, e⟩, he, ⟨name, es, ν⟩, hnew, c, hc, _, hbody, chunk, rfl,
    m, hm, m', hm', hmember, rfl, hwidth, hfind, hcode, hip, hheight, hheight', hip', hfirst, hevents⟩ := hrun
  obtain ⟨p, a', hp, ha', hcheck, hlower⟩ := Image.ofSource_stages himage
  obtain rfl : a' = a := Except.ok.inj (ha'.symm.trans ha)
  have heq : e = .new name es ν := by
    dsimp only at hnew
    split at hnew
    · cases hnew
      rfl
    · cases hnew
  subst heq
  have hat : a'.ExpressionAt image chunk 3 (.new name es ν) :=
    ⟨_, _, _, hd, hc, .constructor (List.mem_of_getElem? hcd) ⟨0, hmember, hbody⟩
      (List.mem_append_right _ (List.mem_of_getElem? he))⟩
  have hdone : m.Completes image (3 + (Expr.new name es ν).width) 42 m' := by
    refine ⟨hm', hheight'.trans hheight.symm, by rw [hip', hwidth], fun j hj m₁ hrun hsame => ?_⟩
    have hj' := List.all_eq_true.mp hfirst j (List.mem_range.mpr hj)
    rw [RunResult.machine?_eq_some.mpr hrun] at hj'
    simpa [hsame, hwidth] using hj'
  obtain ⟨_, hstack, htrace, _⟩ :=
    Lower.construction_in_order hcheck hlower hat hfind hcode hip hdone
  exact ⟨p, a', image, m, m', hp, hcheck, hlower, hm, hm', hstack, htrace.trans hevents⟩

end ClassLang
