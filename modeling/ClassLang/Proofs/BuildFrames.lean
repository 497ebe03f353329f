import ClassLang.Proofs.BuildOrder

/-!
# Frames that build objects

What the frames of a run do for one object. A frame executes a member of a declared class in a role, and its
operands have the shape that the code tells (`Analysis.Performs`). One step of such a frame logs what is no
longer to be done, and a frame that it starts is there for the object only if it is the parent's member that
is called (`Analysis.Performs.advances`). The same holds of all the frames above one that is watched
(`Analysis.Tower.advances`), which wait for one another.
-/

namespace ClassLang

/-! ## Frames with a role -/

/-- A frame executes a member of a declared class in a role. Its operands have the shape that the code tells,
the results apart that it waits for. -/
structure Analysis.Performs (a : Analysis) (image : Image) (address : Nat) (role : Role) (f : Frame)
    (awaited : List Slot) : Prop where
  member : ∃ cls key chunk, a.MemberChunk image cls key chunk ∧ f.code = chunk.code ∧
    role = .of key cls f.receiver
  follows : f.Follows
  shaped : ∃ σ, image.shape? f.code f.ip = some (awaited ++ σ) ∧ f.Shaped address σ []

/-- The result of a frame with a role may go to a slot: a new object is given back by its field initializer. -/
def Role.Answers (address : Nat) : Role → Slot → Prop
  | _, .plain => True
  | .initializer _ object, .made _ => object ≠ .object address
  | _, _ => False

/-- What a frame has still to do for the object at an address. -/
def Analysis.pending (a : Analysis) (address : Nat) (role : Role) (f : Frame) : List BuildEvent :=
  if role.serves address then a.rest role f.ip else []

/-- What a step makes of a machine whose frame at work has a role. -/
inductive Analysis.Advances (a : Analysis) (image : Image) (address : Nat) (role : Role) (m : Machine) :
    Machine → Prop
  | within {f : Frame} {heap : Heap} {console : Console} :
      a.Performs image address role f [] →
      a.pending address role m.frame = a.log address m [role] ++ a.pending address role f →
      Advances a image address role m ⟨f, m.callers, heap, console⟩
  | enters {f g : Frame} {s : Slot} {role' : Role} {heap : Heap} :
      a.Performs image address role f [s] → a.Performs image address role' g [] →
      role'.Answers address s →
      m.frame.code[m.frame.ip]?.elim .other (image.roleOf · g.receiver) = role' →
      a.pending address role m.frame =
        a.log address m [role] ++ (a.pending address role' g ++ a.pending address role f) →
      (role'.serves address = true → role.serves address = true) →
      Advances a image address role m ⟨g, f :: m.callers, heap, m.console⟩
  | leaves {caller : Frame} {callers : List Frame} {w : Value} :
      m.callers = caller :: callers →
      a.pending address role m.frame = a.log address m [role] →
      (∀ cls object, role = .initializer cls object → w = object) →
      Advances a image address role m ⟨caller.push w, callers, m.heap, m.console⟩

theorem Frame.start_receiver {chunk : Chunk} {args : List Value} {w : Value} (h : args.head? = some w) :
    (Frame.start chunk args).receiver = w := by
  obtain ⟨rest, rfl⟩ := List.head?_eq_some_iff.mp h
  rfl

/-- A result that a frame waits for is put on its stack. -/
theorem Role.Answers.filled {address : Nat} {role : Role} {s : Slot} {f : Frame} {w : Value} {σ : List Slot}
    {below : List Value} (h : role.Answers address s)
    (hw : ∀ cls object, role = .initializer cls object → w = object)
    (hshape : f.Shaped address σ below) : (f.push w).Shaped address (s :: σ) below := by
  obtain ⟨ws, hws, hoperands⟩ := hshape
  refine ⟨w :: ws, congrArg (w :: ·) hws, ?_⟩
  cases s with
  | plain => exact .plain hoperands
  | made k =>
    cases role with
    | initializer cls object => exact .made (hw cls object rfl ▸ h) hoperands
    | other | constructor => exact h.elim
  | receiver | again => cases role <;> exact h.elim

section

variable {a : Analysis} {image : Image} {address : Nat} {role : Role}

theorem Analysis.Performs.filled {s : Slot} {f : Frame} {w : Value} {role' : Role}
    (h : a.Performs image address role f [s]) (hs : role'.Answers address s)
    (hw : ∀ cls object, role' = .initializer cls object → w = object) :
    a.Performs image address role (f.push w) [] := by
  obtain ⟨σ, hσ, hshape⟩ := h.shaped
  exact ⟨h.member, h.follows, s :: σ, hσ, hs.filled hw hshape⟩

variable (W : WellTyped a) (A : Assembled a image)

include W A

/-- A frame that starts the chunk of a member. -/
theorem start_performs {c member owner : Nat} {chunk : Chunk}
    (h : image.resolve? c member = some (owner, .compiled chunk)) (address : Nat) (args : List Value) :
    ∃ cls key, image.members[member]? = some key ∧ owner = Builtin.count + cls ∧
      a.MemberChunk image cls key chunk ∧
      a.Performs image address (.of key cls (Frame.start chunk args).receiver) (.start chunk args) [] := by
  obtain ⟨key, hm, ⟨_, _, _, _, _, hnative⟩ | ⟨cls, _, rfl, hcompiled, hchunk⟩⟩ := resolve_cases W A h
  · cases hnative
  · cases hcompiled
    exact ⟨cls, key, hm, rfl, hchunk, ⟨cls, key, chunk, hchunk, rfl, rfl⟩, .refl, [], rfl, [], rfl, .nil⟩

omit W A in
theorem roleOf_eq {i : Instr} {c member cls : Nat} {body : Body} {key : MemberKey} {receiver : Value}
    (hc : i.construct? = some c) (hcallee : image.callee? i = some member)
    (hres : image.resolve? c member = some (Builtin.count + cls, body))
    (hm : image.members[member]? = some key) : image.roleOf i receiver = .of key cls receiver := by
  have hm' : image.member? member = some key := hm
  simp [Image.roleOf, hc, hcallee, hres, hm']

omit W A in
theorem roleOf_inherited {i : Instr} {member : Nat} {key : MemberKey} {receiver : Value}
    (hcallee : image.callee? i = some member) (hm : image.members[member]? = some key)
    (hkey : key.isInherited = true) : image.roleOf i receiver = .other := by
  have hm' : image.member? member = some key := hm
  simp only [Image.roleOf, hcallee, hm', Option.bind_eq_bind, Option.bind_some, Option.pure_def,
    Role.of_inherited hkey]
  cases i.construct? with
  | none => rfl
  | some c =>
    simp only [Option.bind_some]
    cases image.resolve? c member <;> rfl

/-- The instruction in front of a frame finds what it needs. Only the call of the parent's member may build
the receiver. -/
theorem Analysis.Performs.settled {f : Frame} (h : a.Performs image address role f []) {i : Instr}
    (hi : f.code[f.ip]? = some i) : ∃ own σ σ', image.shape? f.code f.ip = some σ ∧
      f.Shaped address σ [] ∧ image.effect? own i σ = some σ' ∧
      (∀ j ∈ i.successors f.ip, image.shape? f.code j = some σ') ∧
      (own = true → f.ip = a.base role ∧ (role.serves address = true ↔ f.receiver = .object address)) := by
  obtain ⟨⟨cls, key, chunk, hchunk, hcode, hrole⟩, _, σ, hσ, hshape⟩ := h
  have hin : f.ip < chunk.code.size := (Array.getElem?_eq_some_iff.mp (hcode ▸ hi)).1
  have hsettled : ∃ own, image.SettledAt own chunk.code f.ip ∧
      (own = true → f.ip = a.base role ∧ (role.serves address = true ↔ f.receiver = .object address)) := by
    cases hkey : key.isInherited with
    | true => exact ⟨_, hchunk.settled W A hkey f.ip (Nat.zero_le _) hin, nofun⟩
    | false =>
      refine ⟨_, (hchunk.plan W A hkey f.receiver).settled f.ip (Nat.zero_le _) hin, fun hown => ?_⟩
      rw [← hrole] at hown
      exact ⟨(Option.some.inj (of_decide_eq_true hown)).symm, by rw [hrole, Role.serves_of, hkey]; simp⟩
  obtain ⟨own, hsettled, hown⟩ := hsettled
  rw [hcode] at hi hσ ⊢
  obtain ⟨σ₁, σ', hσ₁, heffect, hnext, _⟩ := hsettled i hi
  obtain rfl : σ = σ₁ := Option.some.inj (hσ.symm.trans hσ₁)
  exact ⟨own, σ, σ', hσ, hshape, heffect, fun j hj => (hnext j hj).2, hown⟩

omit W A in
theorem log_serves {m : Machine} {roles : List Role} (h : role.serves address = true) :
    a.log address m (role :: roles) = a.events role m.frame.code m.frame.ip := if_pos h

omit W A in
theorem log_silent {m : Machine} {roles : List Role} (h : role.serves address = false) :
    a.log address m (role :: roles) = [] := if_neg (by simp [h])

omit W A in
theorem pending_serves {f : Frame} (h : role.serves address = true) :
    a.pending address role f = a.rest role f.ip := if_pos h

omit W A in
theorem pending_silent {f : Frame} (h : role.serves address = false) :
    a.pending address role f = [] := if_neg (by simp [h])

/-- The plan that a frame which is there for an object follows. -/
theorem Analysis.Performs.plan {f : Frame} {awaited : List Slot}
    (h : a.Performs image address role f awaited) (hserves : role.serves address = true) :
    ∃ cls key, role = .of key cls (.object address) ∧ f.receiver = .object address ∧
      key.isInherited = false ∧ a.Plan image key cls (.object address) f.code := by
  obtain ⟨⟨cls, key, chunk, hchunk, hcode, rfl⟩, _, _⟩ := h
  obtain ⟨hkey, hreceiver⟩ := Role.serves_of.mp hserves
  exact ⟨cls, key, by rw [hreceiver], hreceiver, hkey, hcode ▸ hchunk.plan W A hkey _⟩

/-- What is left to do behind an instruction that does not call the parent's member. -/
theorem pending_next {m : Machine} {f : Frame} (h : a.Performs image address role m.frame [])
    (hleads : Leads m.frame.code m.frame.ip f.ip)
    (hbase : role.serves address = true → m.frame.ip ≠ a.base role) :
    a.pending address role m.frame = a.log address m [role] ++ a.pending address role f := by
  cases hserves : role.serves address with
  | false => rw [pending_silent hserves, pending_silent hserves, log_silent hserves, List.append_nil]
  | true =>
    obtain ⟨cls, key, rfl, _, _, hplan⟩ := h.plan W A hserves
    rw [pending_serves hserves, pending_serves hserves, log_serves hserves]
    exact hplan.next _ _ h.follows hleads (hbase hserves)

/-- The member of a class that builds objects is called on the object at an address. A native has nothing to
do, and a chunk gets a frame that has to do all that the class and its ancestors need. -/
theorem start_builds {id member : Nat} {meth : Method} {key : MemberKey}
    (hctor : a.classes.constructor? id = some meth) (hkey : key.isInherited = false)
    (hm : image.members[member]? = some key) (address : Nat) :
    ∃ owner body, image.resolve? (TypeId.index id) member = some (owner, body) ∧
      ((a.script key id = [] ∧ ∃ native n, body = .native native n) ∨
      ∃ cls chunk, body = .compiled chunk ∧ ∀ args, args.head? = some (.object address) →
        a.Performs image address (.of key cls (.object address)) (.start chunk args) [] ∧
        a.pending address (.of key cls (.object address)) (.start chunk args) = a.script key id ∧
        ∀ i : Instr, i.construct? = some (TypeId.index id) → image.callee? i = some member →
          image.roleOf i (Frame.start chunk args).receiver = .of key cls (.object address)) := by
  obtain ⟨owner, body, hres, hbody⟩ := resolve_building W A hctor hkey hm
  refine ⟨owner, body, hres, ?_⟩
  rcases hbody with ⟨hlt, hnative⟩ | ⟨cls, chunk, rfl, rfl, rfl, d, _, _, _, hd, _⟩
  · exact .inl ⟨W.script_builtin hlt, hnative⟩
  · refine .inr ⟨cls, chunk, rfl, fun args hargs => ?_⟩
    obtain ⟨cls', key', hm', hcls, _, hg⟩ := start_performs W A hres address args
    obtain rfl := Option.some.inj (hm.symm.trans hm')
    obtain rfl : cls = cls' := Nat.add_left_cancel hcls
    rw [Frame.start_receiver hargs] at hg ⊢
    exact ⟨hg, (pending_serves (Role.serves_of.mpr ⟨hkey, rfl⟩)).trans (rest_zero W hd),
      fun i hc hcallee => roleOf_eq hc hcallee hres hm⟩

/-- The call of the parent's member, and what that has to do. -/
theorem pending_delegates {m : Machine} (h : a.Performs image address role m.frame [])
    (hserves : role.serves address = true) (hbase : m.frame.ip = a.base role) :
    ∃ key p member, key.isInherited = false ∧ (∃ meth, a.classes.constructor? p = some meth) ∧
      m.frame.code[m.frame.ip]? = some (.invoke (TypeId.index p) member) ∧
      image.members[member]? = some key ∧
      (∀ f : Frame, f.ip = m.frame.ip + 1 → a.pending address role m.frame =
        a.log address m [role] ++ (a.script key p ++ a.pending address role f)) ∧
      ∃ σ n, image.shape? m.frame.code m.frame.ip = some σ ∧
        image.pops? (.invoke (TypeId.index p) member) = some (n + 1) ∧ σ[n]? = some .receiver := by
  obtain ⟨cls, key, rfl, _, hkey, hplan⟩ := h.plan W A hserves
  obtain ⟨p, member, hp, hctor, hcall, hm, hreceiver⟩ := hplan.call
  rw [← hbase] at hcall hreceiver
  refine ⟨key, p, member, hkey, hctor, hcall, hm, fun f hf => ?_, hreceiver⟩
  have hdelegates := hplan.delegates
  rw [← hbase, Analysis.parentScript, hp, Option.elim_some, List.append_assoc] at hdelegates
  rw [pending_serves hserves, pending_serves hserves, log_serves hserves, hf]
  exact hdelegates

omit W A in
theorem builds_invoke {c member : Nat} {key : MemberKey} (hm : image.members[member]? = some key) :
    image.builds (.invoke c member) = !key.isInherited := by
  have hm' : image.member? member = some key := hm
  simp [Image.builds, Instr.member?, hm']

/-- What a call starts has a role, and it is there for the object at an address only if the receiver of the
caller is that object, and the caller may build it. -/
theorem Image.Starts.performs {own : Bool} {f : Frame} {σ : List Slot} {i : Instr} {s : Slot}
    {chunk : Chunk} {args : List Value} (h : image.Starts own address f σ i s chunk args) :
    ∃ role', a.Performs image address role' (.start chunk args) [] ∧ role'.Answers address s ∧
      image.roleOf i (Frame.start chunk args).receiver = role' ∧
      (role'.serves address = true → own = true ∧ f.receiver = .object address) := by
  cases h with
  | @made k member owner _ w hk hmember hres hne =>
    subst hk
    obtain ⟨cls, key, hm, rfl, _, hg⟩ := start_performs W A hres address [w]
    obtain rfl : key = .initializer :=
      Option.some.inj (hm.symm.trans (Image.member_of_memberId hmember))
    rw [Frame.start_receiver rfl] at hg
    exact ⟨_, hg, hne, roleOf_eq rfl hmember hres hm, fun hserves =>
      absurd (Role.serves_of.mp hserves).2 hne⟩
  | @built c member owner n _ _ w hinvoke _ hres _ hhead hobject =>
    subst hinvoke
    obtain ⟨cls, key, hm, rfl, _, hg⟩ := start_performs W A hres address args
    have hreceiver : (Frame.start chunk args).receiver = w := Frame.start_receiver hhead
    rw [hreceiver] at hg ⊢
    refine ⟨_, hg, trivial, roleOf_eq rfl rfl hres hm, fun hserves => ?_⟩
    have hw := (Role.serves_of.mp hserves).2
    rcases hobject with ⟨_, hown, rfl⟩ | ⟨_, hne⟩
    · exact ⟨hown, hw⟩
    · exact absurd hw hne
  | @called c member owner _ _ hnew hbuilds hmember hres =>
    obtain ⟨cls, key, hm, rfl, _, hg⟩ := start_performs W A hres address args
    have hkey : key.isInherited = true := by
      have hm' : image.member? member = some key := hm
      simpa [Image.builds, hmember, hm'] using hbuilds
    rw [Role.of_inherited hkey] at hg
    refine ⟨_, hg, trivial, roleOf_inherited ?_ hm hkey, fun hserves => by cases hserves⟩
    cases i with
    | new k => exact absurd rfl (hnew k)
    | _ => exact hmember

omit W A in
/-- The call of a member that builds objects, on the receiver of the caller, is on that receiver. -/
theorem Image.Starts.of_invoke {own : Bool} {f : Frame} {σ : List Slot} {s : Slot} {c member n : Nat}
    {key : MemberKey} {chunk : Chunk} {args : List Value}
    (h : image.Starts own address f σ (.invoke c member) s chunk args)
    (hm : image.members[member]? = some key) (hkey : key.isInherited = false)
    (hpops : image.pops? (.invoke c member) = some (n + 1)) (hslot : σ[n]? = some .receiver) :
    own = true ∧ args.head? = some f.receiver ∧
      ∃ owner, image.resolve? c member = some (owner, .compiled chunk) := by
  cases h with
  | made hnew => cases hnew
  | called _ hbuilds =>
    rw [builds_invoke hm, hkey] at hbuilds
    cases hbuilds
  | built hinvoke _ hres hpops' hhead hobject =>
    cases hinvoke
    obtain rfl := Nat.succ.inj (Option.some.inj (hpops.symm.trans hpops'))
    rcases hobject with ⟨_, hown, rfl⟩ | ⟨hne, _⟩
    · exact ⟨hown, hhead, _, hres⟩
    · exact absurd hslot hne

/-- One step of a frame with a role. -/
theorem Analysis.Performs.advances {m m' : Machine} (h : a.Performs image address role m.frame [])
    (hheap : address < m.heap.objects.size) (hstep : m.step image = .next m') :
    a.Advances image address role m m' := by
  obtain ⟨_, hinit, _⟩ := image_initializes W A
  obtain ⟨i, hi, _⟩ := Machine.step_moves hstep
  obtain ⟨own, σ, σ', hσ, hshape, heffect, hnext, hown⟩ := h.settled W A hi
  have hperforms {f : Frame} {awaited σ₁ : List Slot} (hcode : f.code = m.frame.code)
      (hip : f.ip ∈ i.successors m.frame.ip) (hreceiver : f.receiver = m.frame.receiver)
      (heq : σ' = awaited ++ σ₁) (hf : f.Shaped address σ₁ []) :
      a.Performs image address role f awaited := by
    obtain ⟨cls, key, chunk, hchunk, hcode', hrole⟩ := h.member
    refine ⟨⟨cls, key, chunk, hchunk, hcode.trans hcode', hreceiver ▸ hrole⟩, ?_, σ₁, ?_, hf⟩
    · rw [Frame.Follows, hcode]
      exact h.follows.tail ⟨i, hi, hip⟩
    · rw [hcode, hnext _ hip, heq]
  cases Machine.step_goes hinit hi heffect hshape hheap hstep with
  | @within f heap console hcode hip hreceiver hf hnative =>
    refine .within (hperforms hcode hip hreceiver rfl hf) ?_
    by_cases hbase : role.serves address = true ∧ m.frame.ip = a.base role
    · obtain ⟨key, p, member, hkey, ⟨_, hctor⟩, hcall, hm, hpending, _⟩ :=
        pending_delegates W A h hbase.1 hbase.2
      obtain rfl := Option.some.inj (hi.symm.trans hcall)
      obtain ⟨_, _, _, hres'⟩ := hnative _ _ rfl (by rw [builds_invoke hm, hkey]; rfl)
      obtain ⟨owner, body, hres, ⟨hnil, _⟩ | ⟨_, _, rfl, _⟩⟩ := start_builds W A hctor hkey hm address
      · have hpending := hpending f (List.mem_singleton.mp hip)
        rwa [hnil, List.nil_append] at hpending
      · cases hres.symm.trans hres'
    · exact pending_next W A h ⟨i, hi, hip⟩ fun hserves hip => hbase ⟨hserves, hip⟩
  | @enters f s σ₁ chunk args heap hcode hip hip' hreceiver heq hf hstarts =>
    have hcaller : a.Performs image address role f [s] := hperforms hcode hip hreceiver heq hf
    obtain ⟨role', hg, hanswers, hrole', hserves'⟩ := hstarts.performs W A
    have hserves : role'.serves address = true → role.serves address = true ∧ m.frame.ip = a.base role :=
      fun hserves =>
        have hyes := hown (hserves' hserves).1
        ⟨hyes.2.mpr (hserves' hserves).2, hyes.1⟩
    refine .enters hcaller hg hanswers (by rw [hi]; exact hrole') ?_ fun h => (hserves h).1
    by_cases hbase : role.serves address = true ∧ m.frame.ip = a.base role
    · obtain ⟨key, p, member, hkey, ⟨_, hctor⟩, hcall, hm, hpending, τ, n, hτ, hpops, hslot⟩ :=
        pending_delegates W A h hbase.1 hbase.2
      obtain rfl := Option.some.inj (hi.symm.trans hcall)
      obtain rfl := Option.some.inj (hσ.symm.trans hτ)
      obtain ⟨hyes, hargs, _, hres'⟩ := hstarts.of_invoke hm hkey hpops hslot
      rw [(hown hyes).2.mp hbase.1] at hargs
      obtain ⟨owner, body, hres, ⟨_, _, _, rfl⟩ | ⟨cls, _, rfl, hstart⟩⟩ :=
        start_builds W A hctor hkey hm address
      · cases hres.symm.trans hres'
      · cases hres.symm.trans hres'
        obtain ⟨_, hscript, hrole⟩ := hstart args hargs
        rw [hrole _ rfl rfl] at hrole'
        subst hrole'
        rw [hscript]
        exact hpending f hip'
    · rw [pending_silent (Bool.eq_false_iff.mpr fun h => hbase (hserves h)), List.nil_append]
      exact pending_next W A h ⟨i, hi, hip⟩ fun hserves hip => hbase ⟨hserves, hip⟩
  | leaves hreturn hcallers hstack =>
    subst hreturn
    refine .leaves hcallers ?_ fun cls object hrole => ?_
    · cases hserves : role.serves address with
      | false => rw [pending_silent hserves, log_silent hserves]
      | true =>
        obtain ⟨cls, key, rfl, _, _, hplan⟩ := h.plan W A hserves
        rw [pending_serves hserves, log_serves hserves]
        exact (hplan.result _ hi).1
    · obtain ⟨⟨cls', key, chunk, hchunk, hcode, rfl⟩, _, _⟩ := h
      cases key with
      | initializer =>
        cases hrole
        rw [hcode] at hi hσ
        have hresult := ((hchunk.plan W A rfl m.frame.receiver).result _ hi).2 rfl
        obtain rfl := Option.some.inj (hσ.symm.trans hresult)
        obtain ⟨v, rest, hv, hreceiver⟩ := hshape.top
        rw [hstack] at hv
        cases hv
        exact hreceiver rfl
      | _ => cases hrole

end

/-! ## The frames above one that is watched -/

/-- Frames with their roles, from the one at work downwards: each but the first waits for the result of the
one above it. The last one has the role `bottom`. -/
inductive Analysis.Tower (a : Analysis) (image : Image) (address : Nat) (bottom : Role) :
    List Role → List Frame → List Slot → Prop
  | base {f : Frame} {awaited : List Slot} :
      a.Performs image address bottom f awaited → Tower a image address bottom [bottom] [f] awaited
  | above {role : Role} {f : Frame} {awaited : List Slot} {s : Slot} {roles : List Role}
      {frames : List Frame} :
      a.Performs image address role f awaited → role.Answers address s →
      Tower a image address bottom roles frames [s] →
      Tower a image address bottom (role :: roles) (f :: frames) awaited

/-- What frames have still to do, from the one at work downwards. -/
def Analysis.pendings (a : Analysis) (address : Nat) (roles : List Role) (frames : List Frame) :
    List BuildEvent :=
  (roles.zip frames).flatMap fun p => a.pending address p.1 p.2

namespace Machine

variable {image : Image} {m : Machine} {f g : Frame} {heap : Heap} {console : Console} {roles : List Role}

theorem rolesAfter_within : m.rolesAfter image ⟨f, m.callers, heap, console⟩ roles = roles := by
  rw [rolesAfter, if_neg (Nat.lt_irrefl _), if_neg (Nat.lt_irrefl _)]

theorem rolesAfter_enters : m.rolesAfter image ⟨g, f :: m.callers, heap, console⟩ roles =
    m.frame.code[m.frame.ip]?.elim .other (image.roleOf · g.receiver) :: roles := by
  rw [rolesAfter, List.length_cons, if_pos (Nat.lt_succ_self _)]

theorem rolesAfter_leaves {callers : List Frame} (h : m.callers = f :: callers) :
    m.rolesAfter image ⟨g, callers, heap, console⟩ roles = roles.tail := by
  rw [rolesAfter, h, List.length_cons, if_neg (Nat.not_lt_of_lt (Nat.lt_succ_self _)),
    if_pos (Nat.lt_succ_self _)]

end Machine

section

variable {a : Analysis} {image : Image} {address : Nat} {bottom : Role} {roles : List Role}
  {frames : List Frame}

/-- The frame on top gets the result that it waits for. -/
theorem Analysis.Tower.filled {s : Slot} {role : Role} {w : Value}
    (h : a.Tower image address bottom roles frames [s]) (hs : role.Answers address s)
    (hw : ∀ cls object, role = .initializer cls object → w = object) :
    ∃ f rest, frames = f :: rest ∧ a.Tower image address bottom roles (f.push w :: rest) [] := by
  cases h with
  | base hf => exact ⟨_, _, rfl, .base (hf.filled hs hw)⟩
  | above hf hanswers hrest => exact ⟨_, _, rfl, .above (hf.filled hs hw) hanswers hrest⟩

theorem pendings_cons {role : Role} {f : Frame} : a.pendings address (role :: roles) (f :: frames) =
    a.pending address role f ++ a.pendings address roles frames := rfl

theorem pendings_single {role : Role} {f : Frame} :
    a.pendings address [role] [f] = a.pending address role f := List.append_nil _

theorem log_nil {m : Machine} (h : ∀ role ∈ roles, role.serves address = false) :
    a.log address m roles = [] := by
  cases roles with
  | nil => rfl
  | cons role roles => exact log_silent (h role List.mem_cons_self)

/-- One step of the frames above one that is watched: they go on, or the last of them hands its result to
the frame that is watched. -/
theorem Analysis.Tower.advances (W : WellTyped a) (A : Assembled a image) {m m' : Machine}
    {lower : List Frame} (h : a.Tower image address bottom roles frames [])
    (hm : m.frame :: m.callers = frames ++ lower) (hheap : address < m.heap.objects.size)
    (hstep : m.step image = .next m') :
    (∃ frames', m'.frame :: m'.callers = frames' ++ lower ∧
      a.Tower image address bottom (m.rolesAfter image m' roles) frames' [] ∧
      a.pendings address roles frames =
        a.log address m roles ++ a.pendings address (m.rolesAfter image m' roles) frames' ∧
      ((∀ role ∈ roles, role.serves address = false) →
        ∀ role ∈ m.rolesAfter image m' roles, role.serves address = false)) ∨
    ∃ f w, lower = f :: m'.callers ∧ m'.frame = f.push w ∧ m.rolesAfter image m' roles = [] ∧
      a.pendings address roles frames = a.log address m roles ∧
      ∀ cls object, bottom = .initializer cls object → w = object := by
  cases h with
  | base hf =>
    obtain ⟨rfl, rfl⟩ := List.cons.inj hm
    rw [pendings_single]
    cases hf.advances W A hheap hstep with
    | within hf' hpending =>
      rw [Machine.rolesAfter_within]
      exact .inl ⟨_, rfl, .base hf', by rwa [pendings_single], id⟩
    | enters hcaller hg hanswers hrole hpending hserves =>
      rw [Machine.rolesAfter_enters, hrole]
      refine .inl ⟨[_, _], rfl, .above hg hanswers (.base hcaller), ?_, fun hsilent => ?_⟩
      · rwa [pendings_cons, pendings_single]
      · have hbottom := hsilent _ List.mem_cons_self
        refine List.forall_mem_cons.mpr ⟨Bool.eq_false_iff.mpr fun hyes => ?_, hsilent⟩
        rw [hserves hyes] at hbottom
        cases hbottom
    | leaves hcallers hpending hw =>
      rw [Machine.rolesAfter_leaves hcallers]
      exact .inr ⟨_, _, hcallers, rfl, rfl, hpending, hw⟩
  | @above role _ _ s roles frames hf hanswers hrest =>
    obtain ⟨rfl, hcallers'⟩ := List.cons.inj hm
    rw [pendings_cons]
    cases hf.advances W A hheap hstep with
    | within hf' hpending =>
      rw [Machine.rolesAfter_within, hpending, List.append_assoc]
      exact .inl ⟨_ :: frames, congrArg _ hcallers', .above hf' hanswers hrest, rfl, id⟩
    | enters hcaller hg hanswers' hrole hpending hserves =>
      rw [Machine.rolesAfter_enters, hrole, hpending, List.append_assoc, List.append_assoc]
      refine .inl ⟨_ :: _ :: frames, congrArg (_ :: _ :: ·) hcallers',
        .above hg hanswers' (.above hcaller hanswers hrest), rfl, fun hsilent => ?_⟩
      have htop := hsilent _ List.mem_cons_self
      refine List.forall_mem_cons.mpr ⟨Bool.eq_false_iff.mpr fun hyes => ?_, hsilent⟩
      rw [hserves hyes] at htop
      cases htop
    | leaves hcallers hpending hw =>
      rw [Machine.rolesAfter_leaves hcallers]
      obtain ⟨f, rest, rfl, hfilled⟩ := hrest.filled hanswers hw
      rw [hcallers] at hcallers'
      obtain ⟨rfl, rfl⟩ := List.cons.inj hcallers'
      refine .inl ⟨_ :: rest, rfl, hfilled, ?_, fun hsilent => (List.forall_mem_cons.mp hsilent).2⟩
      rw [hpending]
      cases hfilled <;> rfl

end

end ClassLang
