import ClassLang.Proofs.Simulation
import ClassLang.Proofs.StackShape

/-!
# The depth of the operand stack

Every instruction of an image that is compiled from a program is reached with one depth of the stack, on
whatever path (`Lower.chunks_balanced`). A statement starts and ends with no operands, and the only
instruction that leaves a chunk finds its result and nothing else.
-/

namespace ClassLang

/-! ## Instructions with a shape -/

namespace Image

/-- The instruction at an index finds the operands it needs, and wherever control goes on from it, there is
an instruction whose stack has the shape that it leaves. -/
def SettledAt (image : Image) (own : Bool) (code : Array Instr) (index : Nat) : Prop :=
  ∀ i, code[index]? = some i → ∃ σ σ', image.shape? code index = some σ ∧ image.effect? own i σ = some σ' ∧
    (∀ j ∈ i.successors index, j < code.size ∧ image.shape? code j = some σ') ∧
    (i = .return → σ.length = 1)

/-- The instructions of a part of the code are settled, and only the one at `base` may build the receiver. -/
def SettledIn (image : Image) (base : Option Nat) (code : Array Instr) (start stop : Nat) : Prop :=
  ∀ index, start ≤ index → index < stop → image.SettledAt (base = some index) code index

variable {image : Image} {base : Option Nat} {own : Bool} {code : Array Instr} {start mid stop : Nat}
  {is : List Instr} {i : Instr} {σ σ' : List Slot}

theorem SettledAt.any (h : image.SettledAt false code start) : image.SettledAt own code start :=
  fun i hi => by
    obtain ⟨σ, σ', hσ, heffect, hrest⟩ := h i hi
    exact ⟨σ, σ', hσ, effect?_own heffect, hrest⟩

theorem SettledIn.trans (h : image.SettledIn base code start mid)
    (h' : image.SettledIn base code mid stop) : image.SettledIn base code start stop :=
  fun index hge hlt =>
    if hmid : index < mid then h index hge hmid else h' index (Nat.le_of_not_lt hmid) hlt

theorem SettledIn.empty : image.SettledIn base code start start := fun _ hge hlt =>
  absurd hlt (Nat.not_lt_of_le hge)

theorem SettledIn.one (h : image.SettledAt false code start) :
    image.SettledIn base code start (start + 1) :=
  fun _ hge hlt => Nat.le_antisymm hge (Nat.le_of_lt_succ hlt) ▸ h.any

theorem SettledIn.delegate (h : image.SettledAt true code start) :
    image.SettledIn (some start) code start (start + 1) := fun index hge hlt => by
  obtain rfl := Nat.le_antisymm hge (Nat.le_of_lt_succ hlt)
  rwa [decide_eq_true rfl]

/-- The shape behind a part of the code. -/
theorem shape?_behind (hcode : CodeAt code start is) (hσ : image.shape? code start = some σ)
    (hpass : image.pass? true is σ = some σ') : image.shape? code (start + is.length) = some σ' := by
  have htake : (code.toList.drop start).take is.length = is := by
    refine List.ext_getElem? fun j => ?_
    by_cases hj : j < is.length
    · rw [List.getElem?_take_of_lt hj, List.getElem?_drop, Array.getElem?_toList]
      rw [hcode j is[j] (List.getElem?_eq_getElem hj), List.getElem?_eq_getElem hj]
    · rw [List.getElem?_eq_none (by simp; omega), List.getElem?_eq_none (by omega)]
  rw [shape?, List.take_add, htake, pass?_append]
  rw [shape?] at hσ
  rw [hσ, Option.bind_some, hpass]

/-- The shape behind one instruction. -/
theorem shape?_next (hi : code[start]? = some i) (hσ : image.shape? code start = some σ)
    (heffect : image.effect? own i σ = some σ') : image.shape? code (start + 1) = some σ' := by
  have hcode : CodeAt code start [i] := fun j i' hj => by
    cases j with
    | zero => exact hi.trans hj
    | succ j => cases hj
  exact shape?_behind hcode hσ (by simp [effect?_true heffect])

/-- An instruction that goes on at the next one is settled there if that one is in the code. -/
theorem settledAt_straight (hi : code[start]? = some i) (hstraight : i.Straight)
    (hσ : image.shape? code start = some σ) (heffect : image.effect? own i σ = some σ')
    (hin : start + 1 < code.size) : image.SettledAt own code start := fun i' hi' => by
  rw [hi] at hi'
  cases hi'
  refine ⟨σ, σ', hσ, heffect, fun j hj => ?_, fun hreturn => ?_⟩
  · rw [hstraight start, List.mem_singleton] at hj
    exact hj ▸ ⟨hin, shape?_next hi hσ heffect⟩
  · subst hreturn
    cases hstraight start

/-- Code that runs straight on is settled if the pass through it succeeds. -/
theorem settledIn_straight (hcode : CodeAt code start is) (hstraight : ∀ i ∈ is, i.Straight)
    (hσ : image.shape? code start = some σ) (hpass : image.pass? false is σ = some σ')
    (hin : start + is.length < code.size) : image.SettledIn base code start (start + is.length) := by
  induction is generalizing start σ with
  | nil => exact .empty
  | cons i is ih =>
    obtain ⟨hi, hstraight⟩ := List.forall_mem_cons.mp hstraight
    rw [pass?_cons] at hpass
    obtain ⟨σ₁, heffect, hpass⟩ := Option.bind_eq_some_iff.mp hpass
    have hlen : start + (i :: is).length = start + 1 + is.length := by simp; omega
    rw [hlen] at hin ⊢
    exact .trans (.one (settledAt_straight hcode.head hi hσ heffect (by omega)))
      (ih hcode.tail hstraight (shape?_next hcode.head hσ heffect) hpass hin)

/-- Code that computes values is settled. -/
theorem Computes.settled {n : Nat} (C : image.Computes n is) (hstraight : ∀ i ∈ is, i.Straight)
    (hcode : CodeAt code start is) (hσ : image.shape? code start = some σ)
    (hin : start + is.length < code.size) : image.SettledIn base code start (start + is.length) := by
  obtain ⟨_, _, _, hpass⟩ := C σ
  exact settledIn_straight hcode hstraight hσ hpass hin

/-- Behind code that computes values they lie on the stack. -/
theorem Computes.behind {n : Nat} (C : image.Computes n is) (hcode : CodeAt code start is)
    (hσ : image.shape? code start = some σ) : ∃ vs : List Slot, vs.length = n ∧
      vs.all Slot.free = true ∧ image.shape? code (start + is.length) = some (vs ++ σ) := by
  obtain ⟨vs, hlen, hfree, hpass⟩ := C σ
  exact ⟨vs, hlen, hfree, shape?_behind hcode hσ (pass?_own hpass)⟩

/-- The code in front of the `call` that a member makes to build its receiver. It leaves the receiver and
the arguments on the stack. -/
structure Delegates (image : Image) (front : List Instr) (call : Instr) : Prop where
  straight : ∀ i ∈ front, i.Straight
  shape : ∃ c m key, call = .invoke c m ∧ image.members[m]? = some key ∧ key.isInherited = false ∧
    ∃ vs : List Slot, vs.all Slot.free = true ∧ image.pops? call = some (vs.length + 1) ∧
      image.pass? false front [] = some (vs ++ [.receiver])

/-- A call that builds the receiver and the code in front of it. -/
theorem Delegates.settled {front : List Instr} {call : Instr} (D : image.Delegates front call)
    (hcode : CodeAt code 0 (front ++ [call, .pop])) (hin : front.length + 2 < code.size) :
    image.SettledIn (some front.length) code 0 (front.length + 2) ∧
      image.shape? code (front.length + 2) = some [] := by
  obtain ⟨c, m, key, rfl, hm, hkey, vs, hfree, hpops, hpass⟩ := D.shape
  have hfront : image.SettledIn (some front.length) code 0 (0 + front.length) :=
    settledIn_straight hcode.left D.straight rfl hpass (by omega)
  have hshape : image.shape? code (0 + front.length) = some (vs ++ [.receiver]) :=
    shape?_behind hcode.left rfl (pass?_own hpass)
  have hcall := hcode.right
  rw [Nat.zero_add] at hfront hshape hcall
  have heffect : image.effect? true (.invoke c m) (vs ++ [.receiver]) = some [.plain] := by
    rw [effect?_invoke hm hkey, buildEffect?_receiver hpops rfl hfree]
  have hnext := shape?_next hcall.head hshape heffect
  have hpop : image.effect? false .pop [.plain] = some [] := rfl
  exact ⟨hfront.trans ((SettledIn.delegate
      (settledAt_straight hcall.head (fun _ => rfl) hshape heffect (by omega))).trans
      (.one (settledAt_straight hcall.tail.head (fun _ => rfl) hnext hpop (by omega)))),
    shape?_next hcall.tail.head hnext hpop⟩

end Image

/-! ## Statements -/

/-- The code of a statement at `start`: it is settled, and the stack is empty behind it, and in front of and
behind each statement in it. -/
structure Image.Settles (image : Image) (base : Option Nat) (code : Array Instr) (start stop : Nat)
    (places : List (Nat × Stmt Typing)) : Prop where
  settled : image.SettledIn base code start stop
  behind : image.shape? code stop = some []
  places : ∀ p ∈ places, image.shape? code p.1 = some [] ∧
    image.shape? code (p.1 + p.2.width) = some []

section

variable {a : Analysis} {image : Image} {ρ : Ty} {cls room : Nat} {base : Option Nat}
  {code : Array Instr}

namespace DepthLemmas

open Image

theorem takes {i : Instr} (hpops : image.pops? i = some 1) (hpushes : i.pushes = 0)
    (heffect : ∀ σ, image.effect? false i σ = image.plainEffect? i σ) (v : Slot) (hv : v.free = true) :
    image.effect? false i [v] = some [] := by
  rw [heffect, show ([v] : List Slot) = [v] ++ [] from rfl,
    plainEffect?_of_free hpops rfl (by simpa using hv), hpushes]
  rfl

/-- A value, and one more instruction that takes it from the stack. -/
theorem then_settled {is : List Instr} {i : Instr} {start : Nat} (C : image.Computes 1 is)
    (hstraight : ∀ i ∈ is, i.Straight) (hcode : CodeAt code start (is ++ [i])) (hσ : image.shape? code start = some [])
    (hin : start + is.length < code.size) (hi : ∀ v : Slot, v.free = true → image.effect? false i [v] = some [])
    (hnext : ∀ j ∈ i.successors (start + is.length), j < code.size ∧ image.shape? code j = some []) :
    image.SettledIn base code start (start + is.length + 1) := by
  obtain ⟨vs, hlen, hfree, hshape⟩ := C.behind hcode.left hσ
  obtain ⟨v, rfl⟩ := List.length_eq_one_iff.mp hlen
  refine (C.settled hstraight hcode.left hσ hin).trans (.one fun i' hi' => ?_)
  rw [hcode.right.head] at hi'
  cases hi'
  exact ⟨[v], [], hshape, hi v (by simpa using hfree), hnext, fun _ => rfl⟩

/-- A statement that computes a value and does one thing with it. -/
theorem value_settles {st : Stmt Typing} {is : List Instr} {i : Instr} {start : Nat}
    (C : image.Computes 1 is) (hstraight : ∀ i ∈ is, i.Straight) (hwidth : st.width = is.length + 1)
    (hcode : CodeAt code start (is ++ [i]))
    (hσ : image.shape? code start = some []) (hin : start + st.width < code.size)
    (hi : ∀ v : Slot, v.free = true → image.effect? false i [v] = some [])
    (hnext : ∀ j ∈ i.successors (start + is.length), j = start + is.length + 1)
    (hplaces : st.places start = [(start, st)]) :
    image.Settles base code start (start + st.width) (st.places start) := by
  have hlen : start + st.width = start + is.length + 1 := by omega
  obtain ⟨vs, hvs, hfree, hshape⟩ := C.behind hcode.left hσ
  obtain ⟨v, rfl⟩ := List.length_eq_one_iff.mp hvs
  have hbehind : image.shape? code (start + st.width) = some [] :=
    hlen ▸ shape?_next hcode.right.head hshape (hi v (by simpa using hfree))
  have hsettled : image.SettledIn base code start (start + is.length + 1) :=
    then_settled C hstraight hcode hσ (by omega) hi fun j hj => hnext j hj ▸ ⟨by omega, hlen ▸ hbehind⟩
  rw [hplaces]
  exact ⟨hlen ▸ hsettled, hbehind, List.forall_mem_singleton.mpr ⟨hσ, hbehind⟩⟩

/-- A condition and the jump behind it. -/
theorem test_settled {is : List Instr} {start target n : Nat} (hn : is.length = n)
    (C : image.Computes 1 is) (hstraight : ∀ i ∈ is, i.Straight)
    (hcode : CodeAt code start (is ++ [Instr.jumpIfFalse target]))
    (hσ : image.shape? code start = some []) (hin : start + n + 1 < code.size) :
    image.shape? code (start + n + 1) = some [] ∧ (target < code.size →
      image.shape? code target = some [] → image.SettledIn base code start (start + n + 1)) := by
  subst hn
  obtain ⟨vs, hvs, hfree, hshape⟩ := C.behind hcode.left hσ
  obtain ⟨v, rfl⟩ := List.length_eq_one_iff.mp hvs
  have heffect : ∀ v : Slot, v.free = true → image.effect? false (.jumpIfFalse target) [v] = some [] :=
    takes rfl rfl fun σ => by cases σ <;> rfl
  have hnext : image.shape? code (start + is.length + 1) = some [] :=
    shape?_next hcode.right.head hshape (heffect v (by simpa using hfree))
  refine ⟨hnext, fun htarget hσ' => then_settled C hstraight hcode hσ (by omega) heffect ?_⟩
  simp only [Instr.successors, List.forall_mem_cons]
  exact ⟨⟨hin, hnext⟩, ⟨htarget, hσ'⟩, by simp⟩

/-- The pass goes over a jump as if it were not there. -/
theorem behind_jump {start target : Nat} (hcode : code[start]? = some (.jump target))
    (hσ : image.shape? code start = some []) : image.shape? code (start + 1) = some [] :=
  shape?_next hcode hσ (show image.effect? false (.jump target) [] = some [] from rfl)

/-- A jump between statements. -/
theorem jump_settled {start target : Nat} (hcode : code[start]? = some (.jump target))
    (hσ : image.shape? code start = some []) (htarget : target < code.size)
    (hσ' : image.shape? code target = some []) : image.SettledAt false code start := by
  intro i hi
  rw [hcode] at hi
  cases hi
  exact ⟨[], [], hσ, rfl, List.forall_mem_singleton.mpr ⟨htarget, hσ'⟩, nofun⟩

/-- The places of a statement with the statement itself in front. -/
theorem places_cons {st : Stmt Typing} {start stop : Nat} {places : List (Nat × Stmt Typing)}
    (hσ : image.shape? code start = some []) (hbehind : image.shape? code stop = some [])
    (hstop : start + st.width = stop)
    (h : ∀ p ∈ places, image.shape? code p.1 = some [] ∧
      image.shape? code (p.1 + p.2.width) = some []) :
    ∀ p ∈ (start, st) :: places, image.shape? code p.1 = some [] ∧
      image.shape? code (p.1 + p.2.width) = some [] :=
  List.forall_mem_cons.mpr ⟨⟨hσ, hstop ▸ hbehind⟩, h⟩

end DepthLemmas

open DepthLemmas Image

mutual

/-- The code of a well-typed statement that is reached with an empty stack. -/
theorem stmt_settles (W : WellTyped a) (A : Assembled a image) (hcls : cls < a.classes.size) :
    ∀ (st : Stmt Typing) {env env' : Environment} {start : Nat} {is : List Instr},
      env.Proper a.classes cls ρ → StmtTyped env st env' →
      EmitsStmt image.pools a.classes room (LocalsRel.names env.visible) start st is →
      CodeAt code start is → image.shape? code start = some [] → start + st.width < code.size →
      image.Settles base code start (start + st.width) (st.places start)
  | .define x w e span, env, env', start, is, henv, hst, hc, hcode, hσ, hin => by
    cases hst with
    | define he =>
      cases hc with
      | define hc =>
        exact value_settles (expr_computes W A hcls henv e he hc) hc.straight (by rw [Stmt.width, hc.length_eq])
          hcode hσ hin (takes rfl rfl fun σ => by cases σ <;> rfl)
          (fun j hj => List.mem_singleton.mp hj) rfl
  | .return (some e) span, env, env', start, is, henv, hst, hc, hcode, hσ, hin => by
    cases hst with
    | «return» he =>
      cases hc with
      | «return» hc =>
        exact value_settles (expr_computes W A hcls henv e he hc) hc.straight (by rw [Stmt.width, hc.length_eq])
          hcode hσ hin (takes rfl rfl fun σ => by cases σ <;> rfl)
          (fun j hj => absurd hj List.not_mem_nil) rfl
  | .return none span, env, env', start, is, henv, hst, hc, hcode, hσ, hin => by
    cases hc
    exact value_settles (.single rfl rfl fun σ => by cases σ <;> rfl)
      (List.forall_mem_singleton.mpr fun _ => rfl) rfl hcode hσ hin
      (takes rfl rfl fun σ => by cases σ <;> rfl) (fun j hj => absurd hj List.not_mem_nil) rfl
  | .ifThen c b span, env, env', start, is, henv, hst, hc, hcode, hσ, hin => by
    cases hst with
    | ifThen he hb =>
      rw [Stmt.width, ← Nat.add_assoc, ← Nat.add_assoc] at hin ⊢
      obtain ⟨test, body, hc, hcb, htest, hbody⟩ := hc.ifThen_parts hcode
      obtain ⟨hnext, htest⟩ := test_settled hc.length_eq (expr_computes W A hcls henv c he hc)
        hc.straight htest hσ (by omega)
      have hbody := stmt_settles W A hcls b henv.enter hb (by simpa using hcb) hbody hnext hin
      exact ⟨(htest hin hbody.behind).trans hbody.settled, hbody.behind,
        places_cons hσ hbody.behind (by rw [Stmt.width]; omega) hbody.places⟩
  | .ifElse c b o span, env, env', start, is, henv, hst, hc, hcode, hσ, hin => by
    cases hst with
    | ifElse he hb ho =>
      rw [Stmt.width, ← Nat.add_assoc, ← Nat.add_assoc, ← Nat.add_assoc, ← Nat.add_assoc] at hin ⊢
      obtain ⟨test, body, other, hc, hcb, hco, htest, hbody, hother⟩ := hc.ifElse_parts hcode
      obtain ⟨hnext, htest⟩ := test_settled hc.length_eq (expr_computes W A hcls henv c he hc)
        hc.straight htest hσ (by omega)
      have hbody := stmt_settles W A hcls b henv.enter hb (by simpa using hcb) hbody hnext (by omega)
      have hjumped := behind_jump hother.head hbody.behind
      have hother' := stmt_settles W A hcls o henv.enter ho (by simpa using hco) hother.tail hjumped hin
      refine ⟨(htest (by omega) hjumped).trans (hbody.settled.trans (.trans (.one ?_) hother'.settled)),
        hother'.behind, ?_⟩
      · exact jump_settled hother.head hbody.behind hin hother'.behind
      · exact places_cons hσ hother'.behind (by rw [Stmt.width]; omega)
          (List.forall_mem_append.mpr ⟨hbody.places, hother'.places⟩)
  | .while c b span, env, env', start, is, henv, hst, hc, hcode, hσ, hin => by
    cases hst with
    | «while» he hb =>
      rw [Stmt.width, ← Nat.add_assoc, ← Nat.add_assoc, ← Nat.add_assoc] at hin ⊢
      obtain ⟨test, body, hc, hcb, htest, hbody, hback⟩ := hc.while_parts hcode
      obtain ⟨hnext, htest⟩ := test_settled hc.length_eq (expr_computes W A hcls henv c he hc)
        hc.straight htest hσ (by omega)
      have hbody := stmt_settles W A hcls b henv.enter hb (by simpa using hcb) hbody hnext (by omega)
      have hbehind := behind_jump hback hbody.behind
      refine ⟨(htest hin hbehind).trans (hbody.settled.trans (.one ?_)), hbehind, ?_⟩
      · exact jump_settled hback hbody.behind (by omega) hσ
      · exact places_cons hσ hbehind (by rw [Stmt.width]; omega) hbody.places
  | .block ss span, env, env', start, is, henv, hst, hc, hcode, hσ, hin => by
    cases hst with
    | block hss =>
      cases hc with
      | block hcs =>
        rw [Stmt.width] at hin ⊢
        have h := stmts_settle W A hcls ss henv.enter hss (by simpa using hcs) hcode hσ hin
        exact ⟨h.settled, h.behind, places_cons hσ h.behind rfl h.places⟩
  | .expression e span, env, env', start, is, henv, hst, hc, hcode, hσ, hin => by
    cases hst with
    | expression he =>
      cases hc with
      | expression hc =>
        exact value_settles (expr_computes W A hcls henv e he hc) hc.straight (by rw [Stmt.width, hc.length_eq])
          hcode hσ hin (takes rfl rfl fun σ => by cases σ <;> rfl)
          (fun j hj => List.mem_singleton.mp hj) rfl

theorem stmts_settle (W : WellTyped a) (A : Assembled a image) (hcls : cls < a.classes.size) :
    ∀ (ss : List (Stmt Typing)) {env env' : Environment} {start : Nat} {is : List Instr},
      env.Proper a.classes cls ρ → StmtsTyped env ss env' →
      EmitsStmts image.pools a.classes room (LocalsRel.names env.visible) start ss is →
      CodeAt code start is → image.shape? code start = some [] → start + Stmt.widths ss < code.size →
      image.Settles base code start (start + Stmt.widths ss) (Stmt.placesAll start ss)
  | [], env, env', start, is, _, _, hc, _, hσ, _ => by
    exact ⟨.empty, hσ, by simp [Stmt.placesAll]⟩
  | st :: ss, env, env', start, is, henv, hst, hc, hcode, hσ, hin => by
    cases hst with
    | cons hst hss =>
      cases hc with
      | cons hc hcs =>
        obtain ⟨henv', _, hnames⟩ := hst.grows W hcls henv
        rw [← hnames, hc.length_eq] at hcs
        rw [Stmt.widths, ← Nat.add_assoc] at hin ⊢
        have hright := hcode.right
        rw [hc.length_eq] at hright
        have hfirst := stmt_settles W A hcls st henv hst hc hcode.left hσ (by omega)
        have hrest := stmts_settle W A hcls ss henv' hss hcs hright hfirst.behind hin
        exact ⟨hfirst.settled.trans hrest.settled, hrest.behind,
          List.forall_mem_append.mpr ⟨hfirst.places, hrest.places⟩⟩

end

/-! ## Chunks -/

/-- The code that calls the parent's constructor. -/
theorem baseCall_delegates (W : WellTyped a) (A : Assembled a image) (hcls : cls < a.classes.size)
    {env : Environment} (henv : env.Proper a.classes cls ρ) {es : List (Expr Typing)} {p parent : Nat}
    {base : Method} (hbase : a.classes.constructor? p = some base)
    (hes : ArgumentsTyped env es base.params) (hk : TypeId.construct? p = some parent) {is : List Instr}
    (hc : EmitsBaseCall image.pools a.classes parent (LocalsRel.names env.visible) es is) :
    ∃ front m, is = front ++ [Instr.invoke parent m, .pop] ∧ image.members[m]? = some .constructor ∧
      front.length = 1 + Expr.widths es ∧ image.Delegates front (.invoke parent m) := by
  obtain ⟨τs, hlen, htyped, hfit⟩ := hes
  obtain ⟨r, hr, hmeth⟩ := Option.bind_eq_some_iff.mp hbase
  obtain ⟨hne, rfl⟩ := TypeId.ne_unit_of_construct hk
  cases hc with
  | @call codes m hcs hm =>
    have C := exprs_computes W A hcls henv es hlen htyped hcs
    obtain ⟨body, hres, _, hargs⟩ := resolve_method W A (ClassTable.lt_of_record hr) hne hm (by simp)
      (ClassTable.lookupMethod_own hr hmeth)
    obtain ⟨vs, hvs, hfree, hpass⟩ := C [.receiver]
    have hpops : image.pops? (.invoke (TypeId.index p) m) = some (vs.length + 1) := by
      simp [pops?, hres, hargs, hvs, hlen, List.Forall₂.length_eq hfit]
    have hfirst : image.effect? false (.load 0) [] = some [.receiver] := rfl
    refine ⟨_, m, rfl, hm, by simp [lengths_eq hcs, Nat.add_comm], ?_, _, m, _, rfl, hm, rfl, vs, hfree,
      hpops, ?_⟩
    · exact List.forall_mem_cons.mpr ⟨fun _ => rfl, straight_all hcs⟩
    · rw [pass?_cons, hfirst, Option.bind_some, hpass]

/-- The code that stores the initial values of fields. -/
theorem fields_shape (W : WellTyped a) (A : Assembled a image) {id : Nat} {r : ClassRecord}
    (hid : id < a.classes.size) {ds : List (FieldDecl Typing)} {codes : List (List Instr)}
    (hds : ∀ d ∈ ds, FieldTyped a.classes id r d)
    (hcodes : List.Forall₂ (EmitsField image.pools a.classes id) ds codes) :
    image.pass? false codes.flatten [] = some [] := by
  induction hcodes with
  | nil => rfl
  | @cons d code ds codes hc _ ih =>
    obtain ⟨⟨f, _, hinit⟩, hds⟩ := List.forall_mem_cons.mp hds
    rw [List.flatten_cons, pass?_append]
    cases hc with
    | blank => exact ih hds
    | @initial e owner g code hsome _ hc =>
      obtain ⟨υ, he, _⟩ := hinit _ hsome
      have C : image.Computes 1 code := expr_computes W A hid (a.classes.inside_proper id _) _ he hc
      have hstore : image.Computes 1 (Instr.load 0 :: code ++ [Instr.setField g.offset]) :=
        ((Computes.load 0).append C).snoc rfl rfl fun σ => by cases σ <;> rfl
      obtain ⟨vs, hvs, hfree, hvalue⟩ := hstore []
      obtain ⟨v, rfl⟩ := List.length_eq_one_iff.mp hvs
      have hpop : image.effect? false .pop [v] = some [] :=
        takes rfl rfl (fun σ => by cases σ <;> rfl) v (by simpa using hfree)
      rw [List.append_cons (.load 0 :: code), pass?_append, hvalue]
      simp [hpop, ih hds]

/-- The code that calls the parent's field initializer. -/
theorem parentInitializer_delegates (W : WellTyped a) (A : Assembled a image) {id p parent m : Nat}
    (hp : a.classes.parent? id = some p) (hk : TypeId.construct? p = some parent)
    (hm : image.members[m]? = some .initializer) :
    image.Delegates [.load 0] (.invoke parent m) := by
  obtain ⟨_, rfl⟩ := TypeId.ne_unit_of_construct hk
  have hpops : image.pops? (.invoke (TypeId.index p) m) = some 1 := by
    rcases resolve_initializer W A (W.parent_inheritable hp) hm with ⟨_, hres⟩ | ⟨hu, body, hres, hbody⟩
    · simp [pops?, hres, Body.ofNative, Body.arguments, Native.arity]
    · cases hbody with
      | builtin hb => exact absurd (Nat.lt_succ_of_lt (List.getElem?_eq_some_iff.mp hb).1) hu
      | user _ _ _ _ himpl =>
        generalize hkey : MemberKey.initializer = key at himpl
        cases himpl with
        | initializer _ _ _ hargs => simp [pops?, hres, Body.arguments, hargs]
        | @method md _ => exact absurd hkey (md.name.key_ne rfl)
        | constructor | implicitConstructor => cases hkey
  exact ⟨List.forall_mem_singleton.mpr fun _ => rfl, _, m, _, rfl, hm, rfl, [], rfl, hpops, rfl⟩

/-- Code at the end of a chunk that runs straight on and returns the one value it computes. -/
theorem result_settles {start : Nat} {is : List Instr} {v : Slot} (hstraight : ∀ i ∈ is, i.Straight)
    (hpass : image.pass? false is [] = some [v]) (hv : v.free = true)
    (hcode : CodeAt code start (is ++ [Instr.return])) (hσ : image.shape? code start = some [])
    (hsize : code.size = start + is.length + 1) :
    image.SettledIn base code start code.size := by
  rw [hsize]
  refine (settledIn_straight hcode.left hstraight hσ hpass (by omega)).trans (.one fun i hi => ?_)
  rw [hcode.right.head] at hi
  cases hi
  exact ⟨[v], [], shape?_behind hcode.left hσ (pass?_own hpass),
    takes rfl rfl (fun σ => by cases σ <;> rfl) v hv, nofun, fun _ => rfl⟩

/-- The chunk of a member with parameters. The statements of its body leave the stack as they find it. -/
theorem chunk_settles (W : WellTyped a) (A : Assembled a image) (hcls : cls < a.classes.size)
    {params : List Param} {before : List Instr} {body : Option (Stmt Typing)} {chunk : Chunk}
    (hchunk : EmitsChunk image.pools a.classes params before body chunk)
    (hbefore : CodeAt chunk.code 0 before → before.length < chunk.code.size →
      image.SettledIn base chunk.code 0 before.length ∧ image.shape? chunk.code before.length = some [])
    (hbody : ∀ st, body = some st → ∃ env env', env.Proper a.classes cls ρ ∧
      LocalsRel.names env.visible = paramNames params ∧ StmtTyped env st env') :
    image.SettledIn base chunk.code 0 chunk.code.size ∧
      ∀ st, body = some st → ∀ p ∈ st.places before.length, image.shape? chunk.code p.1 = some [] ∧
        image.shape? chunk.code (p.1 + p.2.width) = some [] := by
  obtain ⟨is, hcode, hemits⟩ := hchunk.code
  have hwhole := CodeAt.whole hcode
  have hsize : chunk.code.size = before.length + is.length + 2 := by
    rw [← Array.length_toList, hcode]
    simp only [List.length_append, List.length_cons, List.length_nil]
  obtain ⟨hfront, hshape⟩ := hbefore hwhole.left.left (by omega)
  have hmiddle := hwhole.left.right
  have hend := hwhole.right
  rw [Nat.zero_add] at hmiddle hend
  rw [List.length_append] at hend
  have hresult (hbehind : image.shape? chunk.code (before.length + is.length) = some []) :
      image.SettledIn base chunk.code (before.length + is.length) chunk.code.size :=
    result_settles (show ∀ i ∈ [Instr.pushNull], i.Straight from List.forall_mem_singleton.mpr fun _ => rfl)
      rfl rfl hend hbehind hsize
  cases body with
  | none =>
    subst hemits
    exact ⟨hfront.trans (hresult hshape), by simp⟩
  | some st =>
    obtain ⟨env, env', henv, hnames, hst⟩ := hbody st rfl
    have hemits : EmitsStmt image.pools a.classes chunk.locals (paramNames params) before.length st is :=
      hemits
    rw [← hnames] at hemits
    have hbody : image.Settles base chunk.code before.length (before.length + st.width)
        (st.places before.length) :=
      stmt_settles W A hcls st henv hst hemits hmiddle hshape (by rw [hsize, hemits.length_eq]; omega)
    rw [hemits.length_eq] at hresult
    refine ⟨hfront.trans (hbody.settled.trans (hresult hbody.behind)), fun st' hst' => ?_⟩
    cases hst'
    exact hbody.places

/-- The chunk of a method. -/
theorem method_settles (W : WellTyped a) (A : Assembled a image) {id p : Nat} {r : ClassRecord}
    {d : ClassDecl Typing} {chunk : Chunk} (hc : ClassTyped a.classes id p r d)
    {md : MethodDecl Typing} (hmd : md ∈ d.methods)
    (hchunk : EmitsChunk image.pools a.classes md.params [] (some md.body) chunk) :
    image.SettledIn none chunk.code 0 chunk.code.size ∧
      ∀ q ∈ md.body.places 0, image.shape? chunk.code q.1 = some [] ∧
        image.shape? chunk.code (q.1 + q.2.width) = some [] := by
  obtain ⟨meth, hm, hlen, _, env, env', hbound, hbody⟩ := hc.methods _ hmd
  refine (chunk_settles (ρ := meth.returns) W A (ClassTable.lt_of_record hc.record) hchunk
    (fun _ _ => ⟨.empty, rfl⟩) fun st hst => ?_).imp_right fun h => h _ rfl
  cases hst
  exact ⟨env, env', hbound.proper (W.params_named hc.record hm), hbound.names hlen, hbody⟩

/-- The code of a member that builds its receiver: `front`, and then the call of the member of the parent
construct with the same `key`. No other instruction builds the receiver. -/
structure Image.Builds (image : Image) (key : MemberKey) (code : Array Instr) (front : List Instr)
    (parent m : Nat) : Prop where
  member : image.members[m]? = some key
  delegates : image.Delegates front (.invoke parent m)
  begins : CodeAt code 0 (front ++ [.invoke parent m, .pop])
  settled : image.SettledIn (some front.length) code 0 code.size

/-- The chunk of a constructor. -/
theorem constructor_settles (W : WellTyped a) (A : Assembled a image) {id p parent : Nat}
    (hid : id < a.classes.size) {env : Environment} (henv : env.Proper a.classes id ρ)
    {params : List Param} (hnames : LocalsRel.names env.visible = paramNames params)
    {es : List (Expr Typing)} {base : Method} (hbase : a.classes.constructor? p = some base)
    (hes : ArgumentsTyped env es base.params) (hk : TypeId.construct? p = some parent)
    {before : List Instr} {body : Option (Stmt Typing)} {chunk : Chunk}
    (hc : EmitsBaseCall image.pools a.classes parent (paramNames params) es before)
    (hchunk : EmitsChunk image.pools a.classes params before body chunk)
    (hbody : ∀ st, body = some st → ∃ env', StmtTyped env st env') :
    (∃ front m, before = front ++ [Instr.invoke parent m, .pop] ∧ front.length = 1 + Expr.widths es ∧
      image.Builds .constructor chunk.code front parent m) ∧
    ∀ st, body = some st → ∀ q ∈ st.places before.length, image.shape? chunk.code q.1 = some [] ∧
      image.shape? chunk.code (q.1 + q.2.width) = some [] := by
  have hc' := hc
  rw [← hnames] at hc'
  obtain ⟨front, m, rfl, hm, hlen, D⟩ := baseCall_delegates W A hid henv hbase hes hk hc'
  have hbefore : (front ++ [Instr.invoke parent m, .pop]).length = front.length + 2 := by simp
  obtain ⟨hsettled, hplaces⟩ := chunk_settles W A hid hchunk
    (fun hcode hin => hbefore ▸ D.settled hcode (hbefore ▸ hin))
    fun st hst => (hbody st hst).elim fun env' h => ⟨env, env', henv, hnames, h⟩
  obtain ⟨_, hcode, _⟩ := hchunk.code
  exact ⟨⟨front, m, rfl, hlen, hm, D, (CodeAt.whole hcode).left.left, hsettled⟩, hplaces⟩

/-- The chunk of a declared constructor. -/
theorem declared_settles (W : WellTyped a) (A : Assembled a image) {id p parent : Nat}
    {r : ClassRecord} {d : ClassDecl Typing} {chunk : Chunk} (hc : ClassTyped a.classes id p r d)
    (hk : TypeId.construct? p = some parent) {cd : ConstructorDecl Typing}
    (hhead : d.constructors.head? = some cd) {before : List Instr}
    (hbase : EmitsBaseCall image.pools a.classes parent (paramNames cd.params)
      (cd.baseArguments.getD []) before)
    (hchunk : EmitsChunk image.pools a.classes cd.params before (some cd.body) chunk) :
    (∃ front m, before = front ++ [Instr.invoke parent m, .pop] ∧
      front.length = 1 + Expr.widths (cd.baseArguments.getD []) ∧
      image.Builds .constructor chunk.code front parent m) ∧
    ∀ q ∈ cd.body.places before.length, image.shape? chunk.code q.1 = some [] ∧
      image.shape? chunk.code (q.1 + q.2.width) = some [] := by
  have hctor := hc.constructor
  rw [hhead] at hctor
  obtain ⟨meth, base, hm, hparent, hlen, env, env', hbound, hargs, hbody⟩ := hctor
  refine (constructor_settles (ρ := .unit) W A (ClassTable.lt_of_record hc.record)
    (hbound.proper (W.params_named hc.record hm)) (hbound.names hlen) hparent hargs hk hbase hchunk
    fun st hst => ?_).imp_right fun h => h _ rfl
  cases hst
  exact ⟨env', hbody⟩

/-- The base arguments of the constructor of a class. Without a declared one there are none. -/
def ClassDecl.baseArguments {ν : Type} (d : ClassDecl ν) : List (Expr ν) :=
  (d.constructors.head?.bind (·.baseArguments)).getD []

/-- The body of the constructor of a declared class. -/
theorem constructor_builds (W : WellTyped a) (A : Assembled a image) {id p parent : Nat}
    {r : ClassRecord} {d : ClassDecl Typing} {chunk : Chunk} (hc : ClassTyped a.classes id p r d)
    (hk : TypeId.construct? p = some parent)
    (h : Implements image.pools a.classes id parent d .constructor (.compiled chunk)) :
    ∃ front m, front.length = 1 + Expr.widths d.baseArguments ∧
      image.Builds .constructor chunk.code front parent m := by
  generalize hkey : MemberKey.constructor = key at h
  cases h with
  | initializer => cases hkey
  | @method md _ => exact absurd hkey (md.name.key_ne rfl)
  | constructor hhead hbase hchunk =>
    obtain ⟨front, m, _, hlen, hbuilds⟩ := (declared_settles W A hc hk hhead hbase hchunk).1
    exact ⟨front, m, by rw [hlen, ClassDecl.baseArguments, hhead]; rfl, hbuilds⟩
  | implicitConstructor hhead hbase hchunk =>
    have hctor := hc.constructor
    rw [hhead] at hctor
    obtain ⟨_, base, _, hparent, _, hnone⟩ := hctor
    have hes : ArgumentsTyped (a.classes.inside id .unit) [] base.params :=
      hnone ▸ ⟨[], rfl, by simp, .nil⟩
    obtain ⟨front, m, _, hlen, hbuilds⟩ := (constructor_settles (ρ := .unit) W A
      (ClassTable.lt_of_record hc.record) (a.classes.inside_proper id .unit) rfl hparent hes hk
      (show EmitsBaseCall _ _ _ (paramNames []) _ _ from hbase) hchunk (by simp)).1
    exact ⟨front, m, by rw [hlen, ClassDecl.baseArguments, hhead]; rfl, hbuilds⟩

/-- The body of the field initializer of a declared class. It returns its receiver. -/
theorem initializer_builds (W : WellTyped a) (A : Assembled a image) {id p parent : Nat}
    {r : ClassRecord} {d : ClassDecl Typing} {chunk : Chunk} (hc : ClassTyped a.classes id p r d)
    (hk : TypeId.construct? p = some parent)
    (h : Implements image.pools a.classes id parent d .initializer (.compiled chunk)) :
    ∃ m codes, image.Builds .initializer chunk.code [.load 0] parent m ∧
      List.Forall₂ (EmitsField image.pools a.classes id) d.fields codes ∧
      chunk.code.toList = [Instr.load 0, .invoke parent m, .pop] ++ codes.flatten ++ [Instr.load 0, .return] ∧
      image.shape? chunk.code (3 + codes.flatten.length + 1) = some [.receiver] := by
  generalize hkey : MemberKey.initializer = key at h
  cases h with
  | @initializer _ m codes hm hcodes hcode =>
    have hid := ClassTable.lt_of_record hc.record
    have D := parentInitializer_delegates W A hc.parent_eq hk hm
    have hwhole := CodeAt.whole hcode
    have hsize : chunk.code.size = 3 + codes.flatten.length + 2 := by
      rw [← Array.length_toList, hcode]
      simp only [List.length_append, List.length_cons, List.length_nil]
    obtain ⟨hfront, hshape⟩ := D.settled hwhole.left.left (by rw [hsize]; simp; omega)
    have hpass : image.pass? false (codes.flatten ++ [Instr.load 0]) [] = some [.receiver] := by
      rw [pass?_append, fields_shape W A hid hc.fields hcodes]
      rfl
    have hrest : CodeAt chunk.code 3 ((codes.flatten ++ [Instr.load 0]) ++ [Instr.return]) := by
      rw [List.append_assoc]
      exact (List.append_assoc _ _ _ ▸ hwhole).right
    have hlen : 3 + (codes.flatten ++ [Instr.load 0]).length = 3 + codes.flatten.length + 1 := by
      simp [Nat.add_assoc]
    have hlast := shape?_behind hrest.left hshape (pass?_own hpass)
    refine ⟨m, codes, ⟨hm, D, hwhole.left.left, hfront.trans (result_settles ?_ hpass rfl hrest hshape ?_)⟩,
      hcodes, hcode, hlen ▸ hlast⟩
    · exact List.forall_mem_append.mpr ⟨fields_straight hcodes, List.forall_mem_singleton.mpr fun _ => rfl⟩
    · rw [hsize]
      exact congrArg (· + 1) hlen.symm
  | @method md _ => exact absurd hkey (md.name.key_ne rfl)
  | constructor | implicitConstructor => cases hkey

/-- The body of every member of a declared class. -/
theorem implements_settled (W : WellTyped a) (A : Assembled a image) {id p parent : Nat}
    {r : ClassRecord} {d : ClassDecl Typing} {key : MemberKey} {chunk : Chunk}
    (hc : ClassTyped a.classes id p r d) (hk : TypeId.construct? p = some parent)
    (h : Implements image.pools a.classes id parent d key (.compiled chunk)) :
    ∃ base, image.SettledIn base chunk.code 0 chunk.code.size := by
  cases h with
  | method hmd hchunk => exact ⟨none, (method_settles W A hc hmd hchunk).1⟩
  | initializer hm hcodes hcode hargs hlocals =>
    obtain ⟨_, _, hbuilds, _⟩ := initializer_builds W A hc hk (.initializer hm hcodes hcode hargs hlocals)
    exact ⟨_, hbuilds.settled⟩
  | constructor hhead hbase hchunk =>
    obtain ⟨_, _, _, hbuilds⟩ := constructor_builds W A hc hk (.constructor hhead hbase hchunk)
    exact ⟨_, hbuilds.settled⟩
  | implicitConstructor hhead hbase hchunk =>
    obtain ⟨_, _, _, hbuilds⟩ := constructor_builds W A hc hk (.implicitConstructor hhead hbase hchunk)
    exact ⟨_, hbuilds.settled⟩

/-- The chunk that a program starts with. -/
theorem entry_settled (W : WellTyped a) (A : Assembled a image) :
    image.SettledIn none image.entry.code 0 image.entry.code.size := by
  obtain ⟨id, E⟩ := A.entry
  obtain ⟨m, hm, hentry⟩ := E.code
  obtain ⟨meth, hctor, hparams⟩ := E.constructor W
  obtain ⟨hne, hmain⟩ := TypeId.ne_unit_of_construct E.construct
  obtain ⟨r, hr, hmeth⟩ := Option.bind_eq_some_iff.mp hctor
  obtain ⟨body, hres, _, hargs⟩ := resolve_method W A (ClassTable.lt_of_record hr) hne hm (by simp)
    (ClassTable.lookupMethod_own hr hmeth)
  rw [hmain] at hres
  have hpops : image.pops? (.invoke image.main m) = some 1 := by simp [pops?, hres, hargs, hparams]
  have hmember : image.member? m = some .constructor := hm
  have hinvoke : image.buildEffect? false image.main m [.made image.main] = some [.plain] := by
    simp [buildEffect?, hpops, hmember]
  have hfirst : image.effect? false (.new image.main) [] = some [.made image.main] := rfl
  have hpass : image.pass? false [.new image.main, .invoke image.main m] [] = some [.plain] := by
    rw [pass?_cons, hfirst, Option.bind_some, pass?_cons, effect?_invoke hm rfl, hinvoke]
    rfl
  rw [hentry]
  exact result_settles (List.forall_mem_cons.mpr ⟨fun _ => rfl, List.forall_mem_singleton.mpr fun _ => rfl⟩)
    hpass rfl (CodeAt.whole rfl) rfl rfl

/-- Every instruction of an image is settled. -/
theorem image_settled (W : WellTyped a) (A : Assembled a image) {chunk : Chunk}
    (h : image.HasChunk chunk) :
    0 < chunk.code.size ∧ ∃ base, image.SettledIn base chunk.code 0 chunk.code.size := by
  have hpos {is : List Instr} {i : Instr} (hcode : chunk.code.toList = is ++ [i]) : 0 < chunk.code.size := by
    rw [← Array.length_toList, hcode, List.length_append]
    exact Nat.succ_pos _
  rcases hasChunk_cases W A h with rfl | ⟨i, d, c, p, parent, r, key, _, _, ht, hk, _, himpl⟩
  · obtain ⟨_, E⟩ := A.entry
    obtain ⟨_, _, hentry⟩ := E.code
    refine ⟨?_, none, entry_settled W A⟩
    rw [hentry]
    exact Nat.succ_pos _
  · refine ⟨?_, implements_settled W A ht hk himpl⟩
    cases himpl with
    | initializer _ _ hcode => exact hpos (hcode.trans (List.append_cons _ _ _))
    | method _ hchunk | constructor _ _ hchunk | implicitConstructor _ _ hchunk =>
      obtain ⟨_, hcode, _⟩ := hchunk.code
      exact hpos (hcode.trans (List.append_cons _ _ _))

/-- Each statement of a program leaves the stack as it finds it. -/
theorem statement_empty (W : WellTyped a) (A : Assembled a image) {chunk : Chunk} {index : Nat}
    {s : Stmt Typing} (h : a.StatementAt image chunk index s) :
    image.shape? chunk.code index = some [] ∧ image.shape? chunk.code (index + s.width) = some [] := by
  cases h with
  | @method i d c md hd hc hmd hunder hp =>
    obtain ⟨p, r, ht⟩ := W.each i d hd
    exact (method_settles W A ht hmd (method_chunk A hd ht hc hmd hunder)).2 _ hp
  | @constructor i d c cd hd hc hcd hunder hp =>
    obtain ⟨p, r, ht⟩ := W.each i d hd
    obtain ⟨parent, before, hk, hbase, hchunk⟩ := constructor_chunk A hd ht hc hcd hunder
    have hhead := Lower.LowerableLemmas.constructors_head ht.registered hcd
    refine (declared_settles W A ht hk hhead hbase hchunk).2 (index, s) ?_
    rwa [hbase.length_eq]

end

/-! ## Depths -/

namespace Image

/-- The number of operands in front of an instruction. -/
def depth (image : Image) (code : Array Instr) (index : Nat) : Nat :=
  ((image.shape? code index).getD []).length

/-- `depth` is the depth of the stack in front of each instruction: a frame starts with no operands, every
instruction finds those that it takes and leaves what the next ones expect, none leads out of the code, and
one that returns finds its result alone. -/
structure Balanced (image : Image) (code : Array Instr) (depth : Nat → Nat) : Prop where
  nonempty : 0 < code.size
  start : depth 0 = 0
  each : ∀ index i, code[index]? = some i → ∃ n, image.pops? i = some n ∧ n ≤ depth index ∧
    ∀ j ∈ i.successors index, j < code.size ∧ depth j + n = depth index + i.pushes
  result : ∀ index, code[index]? = some .return → depth index = 1

theorem depth_eq {image : Image} {code : Array Instr} {index : Nat} {σ : List Slot}
    (h : image.shape? code index = some σ) : image.depth code index = σ.length := by
  rw [depth, h, Option.getD_some]

/-- Where all instructions are settled, the lengths of the shapes are the depths. -/
theorem SettledIn.balanced {image : Image} {base : Option Nat} {code : Array Instr}
    (hpos : 0 < code.size) (h : image.SettledIn base code 0 code.size) : image.Balanced code (image.depth code) where
  nonempty := hpos
  start := rfl
  each index i hi := by
    obtain ⟨σ, σ', hσ, heffect, hnext, _⟩ :=
      h index (Nat.zero_le _) (Array.getElem?_eq_some_iff.mp hi).1 i hi
    obtain ⟨n, hn, hle, hlen⟩ := effect?_length heffect
    rw [depth_eq hσ]
    exact ⟨n, hn, hle, fun j hj => ⟨(hnext j hj).1, by rw [depth_eq (hnext j hj).2, hlen]⟩⟩
  result index hi := by
    obtain ⟨σ, _, hσ, _, _, hreturn⟩ :=
      h index (Nat.zero_le _) (Array.getElem?_eq_some_iff.mp hi).1 .return hi
    rw [depth_eq hσ, hreturn rfl]

/-- A frame of a chunk of the image that has as many operands as its next instruction has depth. Results
that are due count as if they were there. -/
def Level (image : Image) (due : Nat) (f : Frame) : Prop :=
  ∃ chunk, image.HasChunk chunk ∧ f.code = chunk.code ∧ f.depth + due = image.depth f.code f.ip

/-- What an instruction makes of a frame is what the depths tell. -/
theorem level_kept {image : Image}
    (hall : ∀ chunk, image.HasChunk chunk → image.Balanced chunk.code (image.depth chunk.code)) :
    image.Keeps image.Level where
  starts chunk args hchunk := ⟨chunk, hchunk, rfl, rfl⟩
  passes f f' i due hf hi hpasses := by
    obtain ⟨chunk, hchunk, hcode, hdepth⟩ := hf
    refine ⟨chunk, hchunk, hpasses.code.trans hcode, ?_⟩
    rw [hcode] at hi hdepth
    obtain ⟨n, hn, hle, hnext⟩ := (hall chunk hchunk).each _ _ hi
    obtain ⟨n', pushed, hn', hle', hstack, hpushed⟩ := hpasses.operands
    obtain rfl : n = n' := Option.some.inj (hn.symm.trans hn')
    have hlen : f'.depth = pushed.length + (f.depth - n) := by
      rw [Frame.depth, hstack, List.length_append, List.length_drop, ← Frame.depth]
    have hdepth' := (hnext _ hpasses.next).2
    rw [hpasses.code, hcode]
    omega
  resumes f v hf := by
    obtain ⟨chunk, hchunk, hcode, hdepth⟩ := hf
    exact ⟨chunk, hchunk, hcode, hdepth⟩

end Image

/-- In every chunk of the image of a program each instruction has one depth. A statement of the program has
the same depth in front of it and behind it, and every frame of a run has as many operands as the depth of
its next instruction tells. -/
theorem Lower.chunks_balanced {p : Program Span} {a : Analysis} {image : Image}
    (hcheck : Check.program p = .ok a) (hlower : Lower.image a = .ok image) {chunk : Chunk}
    (hchunk : image.HasChunk chunk) : ∃ depth : Nat → Nat, image.Balanced chunk.code depth ∧
      (∀ index s, a.StatementAt image chunk index s → ∃ room names code,
        EmitsStmt image.pools a.classes room names index s code ∧ CodeAt chunk.code index code ∧
        depth (index + code.length) = depth index) ∧
      ∀ bound console m, image.run bound console = .unfinished m →
        m.Frames fun due f => f.code = chunk.code → f.depth + due = depth f.ip := by
  have W := Check.program_wellTyped hcheck
  have A := Lower.image_assembled hlower
  have hall (chunk : Chunk) (h : image.HasChunk chunk) :
      image.Balanced chunk.code (image.depth chunk.code) := by
    obtain ⟨hpos, _, hsettled⟩ := image_settled W A h
    exact hsettled.balanced hpos
  refine ⟨image.depth chunk.code, hall chunk hchunk, fun index s hs => ?_, fun bound console m hrun => ?_⟩
  · obtain ⟨room, names, code, hemits, hcode, hlen⟩ := hs.emits W A
    obtain ⟨hfront, hbehind⟩ := statement_empty W A hs
    refine ⟨room, names, code, hemits, hcode, ?_⟩
    rw [hlen, Image.depth_eq hfront, Image.depth_eq hbehind]
  · have hlevel := Machine.run_frames (Image.level_kept hall) (Machine.start_frames (Image.level_kept hall) _)
      hrun
    have hdepth : ∀ due f, image.Level due f → f.code = chunk.code →
        f.depth + due = image.depth chunk.code f.ip := by
      rintro due f ⟨_, _, _, hdepth⟩ hcode
      rw [hdepth, hcode]
    exact ⟨hdepth _ _ hlevel.frame, fun f hf => hdepth _ _ (hlevel.callers f hf)⟩

/-- The instructions of the constructor of `oneRound`, which has a loop, have depths. -/
theorem oneRoundConstructor_balanced : ∃ p a image, Program.ofSource oneRound = .ok p ∧
    Check.program p = .ok a ∧ Lower.image a = .ok image ∧ image.HasChunk oneRoundConstructor ∧
    ∃ depth : Nat → Nat, image.Balanced oneRoundConstructor.code depth ∧
      (∀ index s, a.StatementAt image oneRoundConstructor index s → ∃ room names code,
        EmitsStmt image.pools a.classes room names index s code ∧
        CodeAt oneRoundConstructor.code index code ∧ depth (index + code.length) = depth index) ∧
      ∀ bound console m, image.run bound console = .unfinished m →
        m.Frames fun due f => f.code = oneRoundConstructor.code → f.depth + due = depth f.ip := by
  obtain ⟨image, himage, _, c, hc, hfind⟩ := oneRound_image
  obtain ⟨p, a, hp, _, hcheck, hlower⟩ := Image.ofSource_stages himage
  have hchunk : image.HasChunk oneRoundConstructor := .inr ⟨5, c, 0, hc, hfind⟩
  exact ⟨p, a, image, hp, hcheck, hlower, hchunk, Lower.chunks_balanced hcheck hlower hchunk⟩

end ClassLang
